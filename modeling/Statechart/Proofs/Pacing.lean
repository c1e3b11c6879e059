import Statechart.Proofs.Session
import Statechart.Validation

/-!
# Entry sequences run to their end

While a transition is followed, with all that it leads on to, no state is offered anything, and no transition fires but
those out of pseudo states, upon the trigger at hand. An evaluation offers triggers and follows transitions one at a
time, each to its end. So does an initialisation, after the entry sequence of the root, as long as the root has no
second region to be entered.
-/

namespace Statechart

variable {μ δ σ : Type}

/-! ## Following without a break -/

/-- What following a transition may tell, once it has fired upon the trigger. -/
def Event.Furthers (m : Model μ δ) (trigger : Trigger μ) : Event μ δ → Prop
  | .offered .. => False
  | .fired t trigger' _ =>
    trigger' = trigger ∧ ∃ record, m.transition? t = some record ∧ m.isState record.source = false
  | _ => True

def Undisturbed (m : Model μ δ) (trigger : Trigger μ) (start run : Run μ δ σ) : Prop :=
  ∃ new, run.events = new ++ start.events ∧ ∀ event ∈ new, event.Furthers m trigger

section
variable {m : Model μ δ} {trigger : Trigger μ} {start run : Run μ δ σ}

theorem undisturbed_refl : Undisturbed m trigger start start := ⟨[], rfl, by simp⟩

theorem Undisturbed.cons (hr : Undisturbed m trigger start run) (event : Event μ δ) (he : event.Furthers m trigger)
    {run' : Run μ δ σ} (hevents : run'.events = event :: run.events) : Undisturbed m trigger start run' := by
  obtain ⟨new, hnew, hall⟩ := hr
  exact ⟨event :: new, by rw [hevents, hnew]; rfl, List.forall_mem_cons.mpr ⟨he, hall⟩⟩

theorem Undisturbed.congr (hr : Undisturbed m trigger start run) {run' : Run μ δ σ}
    (hevents : run'.events = run.events) : Undisturbed m trigger start run' := by
  obtain ⟨new, hnew, hall⟩ := hr
  exact ⟨new, hevents.trans hnew, hall⟩

end

namespace Eval

open Model

abbrev Maintains {α : Type} (J : Run μ δ σ → Prop) (x : Eval μ δ σ α) : Prop := Triple J x (fun _ => J) fun _ => J

theorem of_maintained {J : Run μ δ σ → Prop} : ∀ run, J run → J run := fun _ hr => hr

structure Robust (m : Model μ δ) (A : Action μ δ → Prop) (J : Run μ δ σ → Prop) : Prop where
  enter : ∀ run element s, J run → J { run.note (.entered element) with outside := s }
  leave : ∀ run element s, J run → J { run.note (.left element) with outside := s }
  act : ∀ run action trigger cause, A action → J run → J ((run.note (.acted cause)).update (action trigger))
  record : ∀ run r v, m.parent? v = some r → J run → J (run.update (·.setCurrent r v))
  terminate : ∀ run, J run → J (run.update (·.setTerminated true))

theorem Robust.step {m : Model μ δ} {plainly : RegionId → Bool} {c : Context σ} {A : Action μ δ → Prop}
    {J : Run μ δ σ → Prop} {E : Halt → Run μ δ σ → Prop} (hJ : Robust m A J) (hE : ∀ halt run, J run → E halt run)
    (h : m.Arena) (hA : m.Acts A) {k : Nat} {mode : Mode μ}
    (hperform : ∀ deep, ∀ j < k, ∀ l, (∀ s ∈ l, m.Within A (fun _ => True) s) →
      Triple J (perform m (m.compileWith plainly) c j { mode with deep } l) (fun _ => J) E)
    (htraverse : ∀ j < k, ∀ t record, m.transition? t = some record → m.isState record.source = false →
      Triple J (traverse m (m.compileWith plainly) c j mode t) (fun _ => J) E)
    {s : Step μ δ} (hs : m.Within A (fun _ => True) s) :
    Triple J (performStep m (m.compileWith plainly) c k mode s) (fun _ => J) E := by
  have hfuel : ∀ run, J run → E .outOfFuel run := hE _
  cases s with
  | announceEnter element => exact triple_announceEnter hfuel fun run s hr => hJ.enter run element s hr
  | announceLeave element => exact triple_announceLeave hfuel fun run s hr => hJ.leave run element s hr
  | act cause action => exact triple_act hfuel fun run hr => hJ.act run action mode.trigger cause hs hr
  | record r v => exact triple_record hfuel fun run hr => hJ.record run r v hs.1 hr
  | terminate => exact triple_terminate hfuel hJ.terminate
  | leaveRegion r =>
    refine triple_leaveRegion hfuel (fun _ _ hr _ _ => hE _ _ hr) (fun _ hr _ => hr) fun v j hj => ?_
    exact (hperform false j hj _ (within_leaveVertex h hA v)).pre fun _ hr => hr.1
  | enterRegion r initial kind =>
    refine triple_enterRegion_either (R := J) (W := fun _ => True) hfuel (fun _ _ hr _ _ => hE _ _ hr)
      (fun _ _ hr => hr) (fun _ _ _ _ => trivial) (fun _ _ => trivial) (fun deep v _ j hj => ?_)
      fun deep v _ j hj => ?_
    · exact hperform deep j hj _ (within_beginEnterVertex hA trivial)
    · exact hperform deep j hj _ (within_endEnterVertex h hA (fun _ _ _ => trivial) trivial)
  | traverse t =>
    obtain ⟨record, hrec, hsource, _⟩ := hs
    exact triple_traverseStep hfuel fun j hj => htraverse j hj t record hrec hsource

section
variable {m : Model μ δ} {plainly : RegionId → Bool} {c : Context σ} {trigger : Trigger μ} {start : Run μ δ σ}

theorem aloof_undisturbed : Aloof (Undisturbed m trigger start) := fun _ event _ he hr =>
  hr.cons event (by cases event <;> trivial) rfl

theorem robust_undisturbed : Robust m (fun _ => True) (Undisturbed m trigger start) where
  enter _ element _ hr := hr.cons (.entered element) trivial rfl
  leave _ element _ hr := hr.cons (.left element) trivial rfl
  act _ _ _ cause _ hr := hr.cons (.acted cause) trivial rfl
  record _ _ _ _ hr := hr.congr rfl
  terminate _ hr := hr.congr rfl

structure Undisturbs (m : Model μ δ) (plainly : RegionId → Bool) (c : Context σ) (trigger : Trigger μ)
    (start : Run μ δ σ) (k : Nat) : Prop where
  perform : ∀ deep l, (∀ s ∈ l, m.Within (fun _ => True) (fun _ => True) s) → Maintains (Undisturbed m trigger start)
    (perform m (m.compileWith plainly) c k { trigger, nested := true, deep } l)
  follow : ∀ t record, m.transition? t = some record → m.isState record.source = false →
    Maintains (Undisturbed m trigger start) (follow m (m.compileWith plainly) c k trigger t)

section
variable (h : m.Arena) {k : Nat} (ih : ∀ j < k, Undisturbs m plainly c trigger start j)
include h ih

theorem triple_undisturbed_step (deep : Bool) {s : Step μ δ} (hs : m.Within (fun _ => True) (fun _ => True) s) :
    Maintains (Undisturbed m trigger start)
      (performStep m (m.compileWith plainly) c k { trigger, nested := true, deep } s) := by
  have hE := of_maintained (J := Undisturbed m trigger start)
  refine robust_undisturbed.step (fun _ _ hr => hr) h (acts_any m) (fun deep j hj => (ih j hj).perform deep)
    (fun j hj t record hrec hsource => ?_) hs
  exact triple_traverse hE (fun i hi => (ih i (by omega)).follow t record hrec hsource) (fun _ _ hr => hr) nofun

theorem triple_undisturbed_follow {P : Run μ δ σ → Prop} {E : Halt → Run μ δ σ → Prop}
    (hE : ∀ run, P run → E .outOfFuel run) (hhalt : ∀ halt run, Undisturbed m trigger start run → E halt run)
    {t : TransitionId} {record : Transition μ δ} (hrec : m.transition? t = some record)
    (hnote : ∀ run, P run → Undisturbed m trigger start (run.note (.fired t trigger run.inst))) :
    Triple P (follow m (m.compileWith plainly) c k trigger t) (fun _ => Undisturbed m trigger start) E := by
  refine triple_follow hE hrec (route?_compileWith (by simp [hrec])) hnote aloof_undisturbed (fun i j hj => ?_)
    (fun _ _ hr => hr) (fun _ _ hr _ _ => hhalt _ _ hr) (fun _ _ _ _ hr => hr.congr rfl) (fun _ _ _ _ _ hr => hr)
    (fun u _ hbranch next hnext j hj => ?_) (fun _ _ _ _ _ hr => hhalt _ _ hr) fun _ _ _ _ _ hr => hr
  · have hwithin : ∀ s ∈ (m.route plainly t).steps i, m.Within (fun _ => True) (fun _ => True) s :=
      within_route h (acts_any m) (fun _ => trivial) t i
    exact (((ih j hj).perform false _ hwithin).halts hhalt).pre fun _ hr => hr.1
  · obtain ⟨record', hrec', hsource⟩ := h.source_of_mem_outgoing hnext
    have hstate : m.isState record'.source = false := Bool.eq_false_iff.mpr fun hs => by
      rw [hsource] at hs
      rw [isBranch_of_isState hs] at hbranch; cases hbranch
    exact ((ih j hj).follow next record' hrec' hstate).halts hhalt

end

theorem undisturbs (h : m.Arena) (k : Nat) : Undisturbs m plainly c trigger start k := by
  induction k using Nat.strongRecOn with
  | ind k ih =>
  refine ⟨fun deep l hl => ?_, fun t record hrec hsource => ?_⟩
  · have hsteps : Does m (m.compileWith plainly) c (fun _ => Undisturbed m trigger start) k
        { trigger, nested := true, deep } (Undisturbed m trigger start) l (Undisturbed m trigger start) :=
      Does.keeps of_maintained fun s hs j hj =>
        triple_undisturbed_step h (fun i hi => ih i (by omega)) deep (hl s hs)
    exact hsteps k (Nat.le_refl k)
  · exact triple_undisturbed_follow h ih of_maintained (fun _ _ hr => hr) hrec fun run hr =>
      hr.cons (.fired t trigger run.inst) ⟨rfl, record, hrec, hsource⟩ rfl

theorem undisturbed_follow (h : m.Arena) (k : Nat) (t : TransitionId) (run : Run μ δ σ) :
    ran (follow m (m.compileWith plainly) c k trigger t run) = run ∨
      Undisturbed m trigger (run.note (.fired t trigger run.inst))
        (ran (follow m (m.compileWith plainly) c k trigger t run)) := by
  cases hrec : m.transition? t with
  | none =>
    left
    cases k <;> simp only [follow, hrec] <;> rfl
  | some record =>
    have hfollow : Triple (fun run' => run' = run) (follow m (m.compileWith plainly) c k trigger t)
        (fun _ run' => run' = run ∨ Undisturbed m trigger (run.note (.fired t trigger run.inst)) run')
        fun _ run' => run' = run ∨ Undisturbed m trigger (run.note (.fired t trigger run.inst)) run' :=
      (triple_undisturbed_follow h (fun j _ => undisturbs h j) (fun _ hr => Or.inl hr) (fun _ _ hr => Or.inr hr) hrec
        fun _ hr => hr ▸ undisturbed_refl).post fun _ _ hr => Or.inr hr
    exact hfollow.ran run rfl

end

end Eval

/-! ## One transition after the other -/

/-- From `start` on, states are offered triggers that satisfy `O`, errors are reported, and transitions are followed
upon such triggers, each to its end. -/
inductive Paced (m : Model μ δ) (p : Program μ δ) (c : Context σ) (O : Trigger μ → Prop) (start : Run μ δ σ) :
    Run μ δ σ → Prop
  | refl : Paced m p c O start start
  | offer {run : Run μ δ σ} (v : VertexId) {trigger : Trigger μ} (ht : O trigger) (hr : Paced m p c O start run) :
      Paced m p c O start (run.note (.offered v trigger))
  | report {run : Run μ δ σ} (error : MachineError) (hr : Paced m p c O start run) :
      Paced m p c O start { run.note (.reported error) with outside := (c.tolerate error run.outside).2 }
  | follow {run : Run μ δ σ} (fuel : Nat) {trigger : Trigger μ} (ht : O trigger) (t : TransitionId)
      (hr : Paced m p c O start run) : Paced m p c O start (ran (Eval.follow m p c fuel trigger t run))
  | settle {run : Run μ δ σ} (hr : Paced m p c O start run) : Paced m p c O start { run with arrived := [] }

theorem Paced.exists_later {m : Model μ δ} {plainly : RegionId → Bool} {c : Context σ} {O : Trigger μ → Prop}
    {start run : Run μ δ σ} (h : m.Arena) (hr : Paced m (m.compileWith plainly) c O start run) :
    ∃ later, run.events = later ++ start.events ∧ ∀ t trigger i, Event.fired t trigger i ∈ later → O trigger := by
  induction hr with
  | refl => exact ⟨[], rfl, by simp⟩
  | @offer run v trigger _ _ ih =>
    obtain ⟨later, hlater, hall⟩ := ih
    exact ⟨.offered v trigger :: later, by rw [Run.events_note, hlater]; rfl, by simpa using hall⟩
  | report error _ ih =>
    obtain ⟨later, hlater, hall⟩ := ih
    exact ⟨.reported error :: later, by rw [Run.events_note, hlater]; rfl, by simpa using hall⟩
  | @follow run fuel trigger ht t _ ih =>
    obtain ⟨later, hlater, hall⟩ := ih
    have hfollow : ran (Eval.follow m (m.compileWith plainly) c fuel trigger t run) = run ∨ _ :=
      Eval.undisturbed_follow h fuel t run
    rcases hfollow with heq | ⟨new, hnew, hfurthers⟩
    · exact ⟨later, by rw [heq, hlater], hall⟩
    · refine ⟨new ++ .fired t trigger run.inst :: later, by rw [hnew, Run.events_note, hlater]; simp, ?_⟩
      intro t' trigger' i hmem
      rcases List.mem_append.mp hmem with hmem | hmem
      · exact (hfurthers _ hmem).1 ▸ ht
      · rcases List.mem_cons.mp hmem with heq | hmem
        · cases heq; exact ht
        · exact hall t' trigger' i hmem
  | settle _ ih => exact ih

namespace Eval

open Model

variable {m : Model μ δ} {p : Program μ δ} {c : Context σ} {O : Trigger μ → Prop} {start : Run μ δ σ}

theorem triple_paced_report (error : MachineError) :
    Maintains (Paced m p c O start) (report c error : Eval μ δ σ _) := by
  intro run hr
  have hreported := hr.report error
  unfold report
  rcases ht : c.tolerate error run.outside with ⟨_ | _, s⟩ <;> rw [ht] at hreported <;> exact hreported

theorem triple_paced_follow (k : Nat) {trigger : Trigger μ} (ht : O trigger) (t : TransitionId) :
    Maintains (Paced m p c O start) (follow m p c k trigger t) := by
  intro run hr
  have hfollowed := hr.follow k ht t
  cases hres : follow m p c k trigger t run <;> rw [hres] at hfollowed <;> exact hfollowed

structure Paces (m : Model μ δ) (p : Program μ δ) (c : Context σ) (O : Trigger μ → Prop) (start : Run μ δ σ)
    (k : Nat) : Prop where
  complete : ∀ v, Maintains (Paced m p c O start) (complete m p c k v)
  offer : ∀ trigger v, O trigger → Maintains (Paced m p c O start) (offer m p c k trigger v)

section
variable {k : Nat} (ih : ∀ j < k, Paces m p c O start j)
include ih

theorem triple_paced_completeAll (l : List VertexId) : Maintains (Paced m p c O start) (completeAll m p c k l) :=
  triple_completeAll (I := fun _ => Paced m p c O start) (fun _ hr => hr.elim fun _ hr => hr) fun v _ j hj =>
    (ih j hj).complete v

theorem triple_paced_traverse {trigger : Trigger μ} (ht : O trigger) (t : TransitionId) :
    Maintains (Paced m p c O start) (traverse m p c k { trigger } t) := by
  have hE := of_maintained (J := Paced m p c O start)
  exact triple_traverse_keeps hE hE (fun _ hr => hr.settle) (fun j _ => triple_paced_follow j ht t) fun v j hj =>
    (ih j hj).complete v

theorem triple_paced_complete (hO : ∀ v, O (.completion v)) (v : VertexId) :
    Maintains (Paced m p c O start) (complete m p c k v) := by
  have hE := of_maintained (J := Paced m p c O start)
  refine triple_complete hE (fun _ hr _ => hr) (fun _ hr _ => hr) (fun _ hr _ => hr) fun j hj => ?_
  exact ((ih j hj).offer (.completion v) v (hO v)).pre fun _ hr => hr.1

theorem triple_paced_offer {trigger : Trigger μ} (ht : O trigger) (v : VertexId) :
    Maintains (Paced m p c O start) (offer m p c k trigger v) := by
  have hE := of_maintained (J := Paced m p c O start)
  exact triple_offer_keeps hE (fun _ hr _ => hr) (fun _ hr => hr.offer v ht) (fun _ hr _ => hr)
    (fun _ _ current j hj => ((ih j hj).offer trigger current ht).pre fun _ hr => hr.1)
    (fun j hj => (ih j hj).complete v)
    (fun t j hj => (triple_paced_traverse (fun i hi => ih i (by omega)) ht t).pre fun _ hr => hr.1) triple_paced_report

end

theorem paces (hO : ∀ v, O (.completion v)) (k : Nat) : Paces m p c O start k := by
  induction k using Nat.strongRecOn with
  | ind k ih =>
  exact ⟨triple_paced_complete ih hO, fun _ v ht => triple_paced_offer ih ht v⟩

/-! ## The entry sequence of the root -/

theorem perform_congr {mode mode' : Mode μ} (hmode : mode.trigger = mode'.trigger) {l : List (Step μ δ)}
    (hl : ∀ s ∈ l, s.IsBrief) (k : Nat) : perform m p c k mode l = perform m p c k mode' l := by
  induction l generalizing k with
  | nil => cases k <;> rfl
  | cons s l ih =>
    cases k with
    | zero => rfl
    | succ k =>
      have hs : performStep m p c k mode s = performStep m p c k mode' s := by
        have hown := hl s List.mem_cons_self
        cases k with
        | zero => rfl
        | succ k => cases s <;> first | (simp only [performStep, hmode]; done) | cases hown
      simp only [perform, hs, ih (fun s hs => hl s (List.mem_cons_of_mem _ hs)) k]

/-- From where `P` holds, `x` does what `y` does, and then goes on with one transition after the other. -/
def Follows (m : Model μ δ) (p : Program μ δ) (c : Context σ) (O : Trigger μ → Prop) (P : Run μ δ σ → Prop)
    (x y : Eval μ δ σ Unit) : Prop := ∀ run, P run → Paced m p c O (ran (y run)) (ran (x run))

variable {P R : Run μ δ σ → Prop} {x y : Eval μ δ σ Unit}

theorem follows_refl : Follows m p c O P x x := fun _ _ => .refl

theorem Follows.of_imp {q : Prop} (h : q → Follows m p c O P x y) : Follows m p c O (fun run => P run ∧ q) x y :=
  fun run hr => h hr.2 run hr.1

theorem Follows.after {α : Type} {z : Eval μ δ σ α} {f g : α → Eval μ δ σ Unit} {T : α → Run μ δ σ → Prop}
    (hz : Triple P z T fun _ _ => True) (h : ∀ a, Follows m p c O (T a) (f a) (g a)) :
    Follows m p c O P (z >>= f) (z >>= g) := by
  intro run hr
  have hrun := hz run hr
  change Paced m p c O (ran (EStateM.bind z g run)) (ran (EStateM.bind z f run))
  unfold EStateM.bind
  cases hres : z run with
  | ok a run' =>
    rw [hres] at hrun
    exact h a run' hrun
  | error e run' => exact .refl

theorem ran_bind_pure (run : Run μ δ σ) : ran ((do x; pure ()) run) = ran (x run) := by
  change ran (EStateM.bind x (fun _ => EStateM.pure ()) run) = ran (x run)
  unfold EStateM.bind
  cases x run <;> rfl

variable {mode : Mode μ} {k : Nat}

theorem Follows.single {mode' : Mode μ} {s : Step μ δ}
    (h : ∀ j < k, Follows m p c O P (performStep m p c j mode s) (performStep m p c j mode' s)) :
    Follows m p c O P (perform m p c k mode [s]) (perform m p c k mode' [s]) := by
  cases k with
  | zero => exact follows_refl
  | succ k =>
    have hnil : ∀ mode'' : Mode μ, perform m p c k mode'' [] = (pure () : Eval μ δ σ Unit) := fun _ => by
      cases k <;> rfl
    intro run hr
    simp only [perform, hnil, ran_bind_pure]
    exact h k (Nat.lt_succ_self k) run hr

theorem Follows.append {mode' : Mode μ} (hmode : mode.trigger = mode'.trigger) {l l' : List (Step μ δ)}
    (hl : ∀ s ∈ l, s.IsBrief) (hkeep : Triple P (perform m p c k mode' l) (fun _ => R) fun _ _ => True)
    (h : ∀ j ≤ k, Follows m p c O R (perform m p c j mode l') (perform m p c j mode' l')) :
    Follows m p c O P (perform m p c k mode (l ++ l')) (perform m p c k mode' (l ++ l')) := by
  rw [perform_append, perform_append, perform_congr hmode hl]
  exact Follows.after hkeep fun _ => h _ (Nat.sub_le _ _)

section
variable (hO : ∀ v, O (.completion v)) (hmode : mode.nested = false)
include hO hmode

theorem follows_traverse (t : TransitionId) :
    Follows m p c O P (traverse m p c k mode t) (traverse m p c k { mode with nested := true } t) := by
  intro run _
  cases k with
  | zero => exact .refl
  | succ k =>
    have htrue : ran (traverse m p c (k + 1) { mode with nested := true } t run) =
        ran (follow m p c k mode.trigger t run) := ran_bind_pure run
    have hfalse : traverse m p c (k + 1) mode t run = match follow m p c k mode.trigger t run with
        | .ok _ run' => completeAll m p c k run'.arrived { run' with arrived := [] }
        | .error halt run' => .error halt run' := by
      simp only [traverse, hmode]
      change EStateM.bind (follow m p c k mode.trigger t) _ run = _
      unfold EStateM.bind
      cases follow m p c k mode.trigger t run <;> rfl
    rw [htrue, hfalse]
    cases follow m p c k mode.trigger t run with
    | ok a run' => exact (triple_paced_completeAll (fun j _ => paces hO j) run'.arrived).ran _ (Paced.refl.settle)
    | error halt run' => exact .refl

theorem follows_endEnterPseudo (v : VertexId) : Follows m p c O P (perform m p c k mode (m.endEnterPseudo v))
    (perform m p c k { mode with nested := true } (m.endEnterPseudo v)) := by
  rcases endEnterPseudo_cases m v with ⟨heq, _⟩ | ⟨t, _, _, _, heq⟩ <;> rw [heq]
  · cases k <;> exact follows_refl
  · refine Follows.single fun j _ => ?_
    cases j with
    | zero => exact follows_refl
    | succ j => exact follows_traverse hO hmode t

theorem follows_enterRegion {plainly : RegionId → Bool} {r : RegionId} {initial : Option VertexId}
    {kind : Option PseudoKind} (hinitial : ∀ v, initial = some v → m.isInitial v = true)
    (hnone : (mode.deep || kind.any (·.isHistory)) = true → ∀ run, P run → run.inst.current? r = none) :
    Follows m (m.compileWith plainly) c O P
      (performStep m (m.compileWith plainly) c k mode (.enterRegion r initial kind))
      (performStep m (m.compileWith plainly) c k { mode with nested := true } (.enterRegion r initial kind)) := by
  cases k with
  | zero => exact follows_refl
  | succ k =>
    simp only [performStep]
    refine Follows.after triple_inst fun i run hrun => ?_
    obtain ⟨hr, hi⟩ := hrun
    have hrecorded : (if (mode.deep || kind.any (·.isHistory)) = true then i.current? r else none) = none := by
      split
      · rename_i hhistory
        exact hi ▸ hnone hhistory run hr
      · rfl
    simp only [hrecorded, Option.none_or]
    cases initial with
    | none => exact .refl
    | some v =>
      have hv := hinitial v rfl
      refine Follows.after (triple_behavior (P := P) (E := fun _ _ => True) fun _ _ _ => trivial) (fun b => ?_) run hr
      refine Follows.of_imp fun hb => ?_
      subst hb
      have hend : m.endEnterVertex plainly v = m.endEnterPseudo v :=
        endEnterVertex_of_not_isState (vertex?_isSome_of_isInitial hv) (isState_eq_false_of_isInitial hv)
      -- Nothing is recorded, so it is the head that is entered. Its announcement does not depend on the mode, and the
      -- way out of it is a traversal.
      have hpseudo : ∀ deep, Follows m (m.compileWith plainly) c O (fun _ => True)
          (perform m (m.compileWith plainly) c k { mode with deep } (m.endEnterPseudo v))
          (perform m (m.compileWith plainly) c k { mode with nested := true, deep } (m.endEnterPseudo v)) :=
        fun deep => follows_endEnterPseudo hO (show ({ mode with deep } : Mode μ).nested = false from hmode) v
      have hsame : ∀ deep, perform m (m.compileWith plainly) c k { mode with deep } (m.beginEnterVertex v) =
          perform m (m.compileWith plainly) c k { mode with nested := true, deep } (m.beginEnterVertex v) :=
        fun _ => perform_congr (by rfl) (isBrief_beginEnterVertex v) k
      simp only [vertexBehavior, hsame, hend]
      exact Follows.after Triple.trivial fun _ => hpseudo _

end

theorem follows_endEnterRegion {plainly : RegionId → Bool} (hO : ∀ v, O (.completion v))
    (hmode : mode.nested = false) {r : RegionId}
    (hnone : (mode.deep || (m.headKind? r).any (·.isHistory)) = true → ∀ run, P run → run.inst.current? r = none) :
    Follows m (m.compileWith plainly) c O P (perform m (m.compileWith plainly) c k mode (m.endEnterRegion plainly r))
      (perform m (m.compileWith plainly) c k { mode with nested := true } (m.endEnterRegion plainly r)) := by
  rcases endEnterRegion_cases m plainly r with heq | ⟨v, _, _, heq⟩ <;> rw [heq]
  · exact Follows.single fun j _ => follows_enterRegion hO hmode (fun _ hv => isInitial_of_head? hv) hnone
  · exact Follows.append (by rfl) (isBrief_beginEnterVertex v) Triple.trivial fun j _ =>
      follows_endEnterPseudo hO hmode v

end Eval

/-! ## Calls -/

def Trigger.IsCompletion : Trigger μ → Prop
  | .completion _ => True
  | _ => False

/-- The root has no second region to be entered, and if history brings back the record of its region, then the entry
actions of the root leave the records alone. -/
structure Model.OpensAtOnce (m : Model μ δ) : Prop where
  regions : (m.regionsOf root).length ≤ 1
  entry : (∃ r ∈ m.regionsOf root, (m.headKind? r).any (·.isHistory) = true) → ∀ record content,
    m.vertex? root = some record → record.form = .state content → ∀ a ∈ content.entry, Action.KeepsRecords a

theorem Model.OpensAtOnce.of_plain {m : Model μ δ} (hregions : (m.regionsOf root).length ≤ 1)
    (hplain : ∀ r ∈ m.regionsOf root, (m.headKind? r).any (·.isHistory) = false) : m.OpensAtOnce where
  regions := hregions
  entry := by
    rintro ⟨r, hr, hhistory⟩
    rw [hplain r hr] at hhistory
    cases hhistory

namespace Eval

open Model

variable {m : Model μ δ} {c : Context σ} {O : Trigger μ → Prop} {k : Nat}

theorem triple_beginRoot (h : m.Arena) {plainly : RegionId → Bool} {mode : Mode μ} {q r : RegionId}
    (hentry : ∀ record content, m.vertex? root = some record → record.form = .state content →
      ∀ a ∈ content.entry, Action.KeepsRecords a) :
    Triple (fun run => run.inst.current? r = none)
      (perform m (m.compileWith plainly) c k mode (m.beginEnterVertex root ++ beginEnterRegion q))
      (fun _ run => run.inst.current? r = none) fun _ _ => True := by
  obtain ⟨record, content, hrec, hf⟩ := isState_iff.mp h.isState_root
  have hparent : record.parent = none := by
    have hp := h.parent?_root
    simpa [parent?, hrec] using hp
  -- The root stands in no region, so entering it records nothing by itself.
  have hsteps : m.beginEnterVertex root ++ beginEnterRegion q =
      .announceEnter (.vertex root) :: content.entry.map (.act (.entry root)) ++ [.announceEnter (.region q)] := by
    simp [beginEnterVertex, hrec, hf, hparent, beginEnterRegion]
  have hacts : ∀ l : List (Action μ δ), (∀ a ∈ l, Action.KeepsRecords a) →
      Does m (m.compileWith plainly) c (fun _ _ => True) k mode (fun run => run.inst.current? r = none)
        (l.map (.act (.entry root))) fun run => run.inst.current? r = none := by
    intro l hl
    induction l with
    | nil => exact .nil fun _ hr => hr
    | cons a l ih =>
      refine .cons (fun _ _ => trivial) (fun _ _ => triple_act (fun _ _ => trivial) fun run hr => ?_)
        (ih fun a ha => hl a (List.mem_cons_of_mem _ ha))
      have hkeeps := hl a List.mem_cons_self mode.trigger run.inst
      simpa [Instance.current?, hkeeps] using hr
  rw [hsteps]
  refine Does.append (.cons (fun _ _ => trivial) (fun _ _ => ?_) (hacts _ (hentry record content hrec hf)))
    (.single (fun _ _ => trivial) fun _ _ => ?_) k (Nat.le_refl k)
  all_goals exact triple_announceEnter (fun _ _ => trivial) fun _ _ hr => hr

theorem follows_onInitialise (h : m.Arena) (hO : ∀ v, O (.completion v)) (ho : m.OpensAtOnce) :
    Follows m m.compile c O (fun run => ∀ r, run.inst.current? r = none)
      (perform m m.compile c k { trigger := .initialise } m.compile.onInitialise)
      (perform m m.compile c k { trigger := .initialise, nested := true } m.compile.onInitialise) := by
  have hsteps : m.compile.onInitialise = m.beginEnterVertex root ++ m.endEnterVertex m.isEnteredPlainly root := rfl
  rw [hsteps, endEnterVertex_of_isState h.isState_root]
  rcases hregions : m.regionsOf root with _ | ⟨q, _ | ⟨q', rest⟩⟩
  · exact Follows.append (by rfl) (isBrief_beginEnterVertex root) Triple.trivial fun j _ => by
      cases j <;> exact follows_refl
  · rw [List.flatMap_singleton, ← List.append_assoc]
    have hown : ∀ s ∈ m.beginEnterVertex root ++ beginEnterRegion q, s.IsBrief := fun s hs =>
      (List.mem_append.mp hs).elim (isBrief_beginEnterVertex root s) fun hs => List.mem_singleton.mp hs ▸ trivial
    refine Follows.append (R := fun run => (m.headKind? q).any (·.isHistory) = true → run.inst.current? q = none)
      (by rfl) hown ?_ fun j _ => ?_
    · by_cases hhistory : (m.headKind? q).any (·.isHistory) = true
      · have hentry := ho.entry ⟨q, by simp [hregions], hhistory⟩
        exact (triple_beginRoot h hentry).conseq (fun run hr => hr q) (fun _ _ hr _ => hr) fun _ _ h => h
      · exact Triple.trivial.post fun _ _ _ hhistory' => absurd hhistory' hhistory
    · exact follows_endEnterRegion hO rfl fun hhistory run hr => hr hhistory
  · have hone := ho.regions
    rw [hregions] at hone
    simp at hone

end Eval

namespace Machine

/-- The entry sequence of an initialisation by itself, of which nothing is tried for completion. -/
def entrySequence (m : Machine μ δ) (c : Context σ) (fuel : Nat) : Eval μ δ σ Unit :=
  Eval.perform m.toModel m.toModel.compile c fuel { trigger := .initialise, nested := true }
    m.toModel.compile.onInitialise

variable {m : Machine μ δ}

/-- Once a transition has fired, it is followed to its end without a state being offered anything or firing itself. A
call of a message does that for one transition after the other. So does an initialisation that opens at once, when its
entry sequence is over, and from then on transitions only fire upon completions. -/
theorem Built.uninterrupted (hm : m.Built) (c : Context σ) (fuel : Nat) (s : σ) :
    (∀ trigger t run, ran (Eval.follow m.toModel m.toModel.compile c fuel trigger t run) = run ∨
      Undisturbed m.toModel trigger (run.note (.fired t trigger run.inst))
        (ran (Eval.follow m.toModel m.toModel.compile c fuel trigger t run))) ∧
    (∀ message i, Paced m.toModel m.toModel.compile c (· ≠ .initialise) { inst := i, outside := s }
      (ran (m.evaluate c fuel message i s).2)) ∧
    (m.OpensAtOnce → (m.prepare? c).isSome → ∀ data, ∃ opened later,
      opened = ran (m.entrySequence c fuel { inst := { data }, outside := s }) ∧
      Undisturbed m.toModel .initialise { inst := { data }, outside := s } opened ∧
      Paced m.toModel m.toModel.compile c Trigger.IsCompletion opened
        (ran (m.initialise c fuel { data } s).2) ∧
      (ran (m.initialise c fuel { data } s).2).events = later ++ opened.events ∧
      ∀ t trigger i, Event.fired t trigger i ∈ later → trigger.IsCompletion) := by
  have h := hm.sound.arena
  refine ⟨fun trigger t run => Eval.undisturbed_follow h fuel t run, fun message i => ?_, fun ho hp data => ?_⟩
  · rcases ran_evaluate hm.sound c fuel message i s with heq | ⟨_, heq⟩ <;> rw [heq]
    · exact .refl
    · exact ((Eval.paces (fun _ => nofun) fuel).offer (.message message) root nofun).ran _ .refl
  · obtain ⟨m', hp⟩ := Option.isSome_iff_exists.mp hp
    -- The entry sequence comes first, and after it nothing but completions lead on.
    have hsteps : ∀ s ∈ (m.compileWith m.isEnteredPlainly).onInitialise, m.Within (fun _ => True) (fun _ => True) s :=
      Model.within_onInitialise h (Model.acts_any m.toModel)
    have hopened : Undisturbed m.toModel .initialise { inst := { data }, outside := s }
        (ran (m.entrySequence c fuel { inst := { data }, outside := s })) :=
      ((Eval.undisturbs h fuel).perform false _ hsteps).ran _ undisturbed_refl
    have hpaced := Eval.follows_onInitialise (c := c) (O := Trigger.IsCompletion) (k := fuel) h (fun _ => trivial) ho
      { inst := { data }, outside := s } fun _ => rfl
    rw [(initialise_eq hm.sound hp fuel { data } s).2.2]
    obtain ⟨later, hlater, hall⟩ := hpaced.exists_later h
    exact ⟨_, later, rfl, hopened, hpaced, hlater, hall⟩

def milestones (events : List (Event String Unit)) : List (VertexId ⊕ VertexId) :=
  events.filterMap fun
    | .entered (.vertex v) => some (.inl v)
    | .fired _ (.completion v) _ => some (.inr v)
    | _ => none

def relay : Machine String Unit := (ofName "m").edited
  [.addState (.state root) "s", .addPseudoState (.region ⟨0⟩) "start" .initial, .addTransition (.between ⟨2⟩ ⟨1⟩),
    .addRegion ⟨1⟩ "left", .addRegion ⟨1⟩ "right", .addPseudoState (.region ⟨1⟩) "start" .initial,
    .addState (.region ⟨1⟩) "a", .addTransition (.between ⟨3⟩ ⟨4⟩), .addPseudoState (.region ⟨2⟩) "start" .initial,
    .addState (.region ⟨2⟩) "b", .addTransition (.between ⟨5⟩ ⟨6⟩), .addState (.region ⟨0⟩) "out",
    .addTransition (.between ⟨4⟩ ⟨7⟩)]

theorem opensAtOnce_relay : relay.OpensAtOnce := .of_plain (by decide +kernel) (by decide +kernel)

theorem uninterrupted_relay :
    milestones (ran (relay.initialise Context.strict 50 { data := () } ()).2).events =
      [.inl ⟨7⟩, .inr ⟨4⟩, .inl ⟨6⟩, .inl ⟨5⟩, .inl ⟨4⟩, .inl ⟨3⟩, .inl ⟨1⟩, .inl ⟨2⟩, .inl root] ∧
    ∃ opened later, opened = ran (relay.entrySequence Context.strict 50 { inst := { data := () }, outside := () }) ∧
      (ran (relay.initialise Context.strict 50 { data := () } ()).2).events = later ++ opened.events ∧
      ∀ t trigger i, Event.fired t trigger i ∈ later → trigger.IsCompletion := by
  obtain ⟨_, _, hopens⟩ := Built.uninterrupted ((Built.ofName "m").edited _ : relay.Built) Context.strict 50 ()
  obtain ⟨opened, later, heq, _, _, hevents, hall⟩ := hopens opensAtOnce_relay (by decide +kernel) ()
  exact ⟨by decide +kernel, opened, later, heq, hevents, hall⟩

/-- The root has two regions itself, and a completion leads on from the first state of one of them. -/
def twins : Machine String Unit := (ofName "m").edited
  [.addRegion root "left", .addRegion root "right", .addPseudoState (.region ⟨0⟩) "start" .initial,
    .addState (.region ⟨0⟩) "a", .addState (.region ⟨0⟩) "out", .addTransition (.between ⟨1⟩ ⟨2⟩),
    .addTransition (.between ⟨2⟩ ⟨3⟩), .addPseudoState (.region ⟨1⟩) "start" .initial,
    .addState (.region ⟨1⟩) "b", .addTransition (.between ⟨4⟩ ⟨5⟩)]

theorem interrupted_twins : twins.Built ∧ twins.isWellFormed = true ∧
    milestones (ran (twins.entrySequence Context.strict 50 { inst := { data := () }, outside := () })).events =
      [.inl ⟨5⟩, .inl ⟨4⟩, .inl ⟨2⟩, .inl ⟨1⟩, .inl root] ∧
    milestones (ran (twins.initialise Context.strict 50 { data := () } ()).2).events =
      [.inl ⟨5⟩, .inl ⟨4⟩, .inl ⟨3⟩, .inr ⟨2⟩, .inl ⟨2⟩, .inl ⟨1⟩, .inl root] :=
  ⟨(Built.ofName "m").edited _, by decide +kernel, by decide +kernel, by decide +kernel⟩

end Machine

end Statechart
