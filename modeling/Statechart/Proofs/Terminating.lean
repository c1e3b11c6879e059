import Statechart.Proofs.Endings
import Statechart.Proofs.Leaving

/-!
# Termination

A terminate vertex sets the flag as soon as it is entered, but a sequence that is being performed takes no notice of
the flag: what is left of it is performed, with the transitions it leads to. Nothing is offered and no state fires any
more, though, in the same call or in a later one. Where nothing leads to a terminate vertex but transitions out of
states, and the branches on their way, entering one is the last thing that is told.
-/

namespace Statechart

variable {μ δ σ : Type}

/-! ## What is told once a terminate vertex is entered -/

def Event.Ends (m : Model μ δ) : Event μ δ → Prop
  | .entered (.vertex v) => m.IsEnd v
  | _ => False

def Event.IsOnward (m : Model μ δ) (event : Event μ δ) : Prop := ∃ trigger, event.Furthers m trigger

/-- Whatever has been told since a terminate vertex was entered satisfies `Q`. -/
def Trails (m : Model μ δ) (Q : Event μ δ → Prop) (events : List (Event μ δ)) : Prop :=
  ∀ later e earlier, events = later ++ e :: earlier → e.Ends m → ∀ event ∈ later, Q event

structure Running (m : Model μ δ) (N : Instance δ → Prop) (run : Run μ δ σ) : Prop where
  running : run.inst.terminated = false
  endless : ∀ e ∈ run.events, ¬ e.Ends m
  inst : N run.inst

structure Concluded (m : Model μ δ) (Q : Event μ δ → Prop) (N : Instance δ → Prop) (run : Run μ δ σ) : Prop where
  trails : Trails m Q run.events
  running : run.inst.terminated = false → Running m N run

/-- The fuel may have run out right between the entering and the flag. -/
def Halted (m : Model μ δ) (Q : Event μ δ → Prop) (N : Instance δ → Prop) (halt : Halt) (run : Run μ δ σ) : Prop :=
  Trails m Q run.events ∧ (halt ≠ .outOfFuel → Concluded m Q N run)

section
variable {m : Model μ δ} {Q : Event μ δ → Prop} {N : Instance δ → Prop} {run run' : Run μ δ σ} {e : Event μ δ}

theorem trails_cons_iff {events : List (Event μ δ)} :
    Trails m Q (e :: events) ↔ ((∃ x ∈ events, x.Ends m) → Q e) ∧ Trails m Q events := by
  refine ⟨fun h => ⟨fun ⟨x, hx, hends⟩ => ?_, fun later x earlier heq hx event hevent => ?_⟩, fun ⟨he, h⟩ => ?_⟩
  · obtain ⟨later, earlier, rfl⟩ := List.append_of_mem hx
    exact h (e :: later) x earlier rfl hends e List.mem_cons_self
  · exact h (e :: later) x earlier (by rw [heq]; rfl) hx event (List.mem_cons_of_mem _ hevent)
  · intro later x earlier heq hx event hevent
    cases later with
    | nil => cases hevent
    | cons y later =>
      obtain ⟨rfl, rfl⟩ := List.cons.inj heq
      rcases List.mem_cons.mp hevent with rfl | hevent
      · exact he ⟨x, by simp, hx⟩
      · exact h later x earlier rfl hx event hevent

theorem trails_of_endless {events : List (Event μ δ)} (h : ∀ e ∈ events, ¬ e.Ends m) : Trails m Q events :=
  fun later e earlier heq he => absurd he (h e (by simp [heq]))

theorem Trails.cons {events : List (Event μ δ)} (h : Trails m Q events) (he : (∃ x ∈ events, x.Ends m) → Q e) :
    Trails m Q (e :: events) := trails_cons_iff.mpr ⟨he, h⟩

instance decidableEnds (m : Model μ δ) : DecidablePred (Event.Ends m)
  | .entered (.vertex v) => Model.decidableIsEnd m v
  | .entered (.region _) | .left _ | .acted _ | .offered .. | .fired .. | .drew .. | .reported _ => isFalse id

instance decidableTrails (m : Model μ δ) (Q : Event μ δ → Prop) [DecidablePred Q] : DecidablePred (Trails m Q)
  | [] => isTrue (trails_of_endless (by simp))
  | e :: events =>
    have := decidableTrails m Q events
    decidable_of_iff (((∃ x ∈ events, x.Ends m) → Q e) ∧ Trails m Q events) trails_cons_iff.symm

theorem Running.concluded (hr : Running m N run) : Concluded m Q N run :=
  ⟨trails_of_endless hr.endless, fun _ => hr⟩

theorem Running.tell (hr : Running m N run) (he : ¬ e.Ends m) (hevents : run'.events = e :: run.events)
    (hterminated : run'.inst.terminated = run.inst.terminated) (hN : N run.inst → N run'.inst) : Running m N run' :=
  ⟨hterminated.trans hr.running, hevents ▸ List.forall_mem_cons.mpr ⟨he, hr.endless⟩, hN hr.inst⟩

theorem Concluded.tell (hr : Concluded m Q N run) (he : ¬ e.Ends m) (hq : Q e) (hevents : run'.events = e :: run.events)
    (hterminated : run'.inst.terminated = run.inst.terminated) (hN : N run.inst → N run'.inst) :
    Concluded m Q N run' :=
  ⟨hevents ▸ hr.trails.cons fun _ => hq, fun h => (hr.running (hterminated ▸ h)).tell he hevents hterminated hN⟩

theorem Running.congr (hr : Running m N run) (hevents : run'.events = run.events)
    (hterminated : run'.inst.terminated = run.inst.terminated) (hN : N run.inst → N run'.inst) : Running m N run' :=
  ⟨hterminated.trans hr.running, hevents ▸ hr.endless, hN hr.inst⟩

theorem Concluded.congr (hr : Concluded m Q N run) (hevents : run'.events = run.events)
    (hterminated : run'.inst.terminated = run.inst.terminated) (hN : N run.inst → N run'.inst) :
    Concluded m Q N run' :=
  ⟨hevents ▸ hr.trails, fun h => (hr.running (hterminated ▸ h)).congr hevents hterminated hN⟩

theorem Concluded.halted (halt : Halt) (hr : Concluded m Q N run) : Halted m Q N halt run := ⟨hr.trails, fun _ => hr⟩

end

namespace Eval

open Model

variable {m : Model μ δ} {A : Action μ δ → Prop} {ends : Bool} {plainly : RegionId → Bool} {c : Context σ}
variable {J : Run μ δ σ → Prop} {E : Halt → Run μ δ σ → Prop} {U : TransitionId → Prop}

/-! ## Sequences and what they lead to -/

/-- The condition withstands what the steps of a sequence that terminates in time do, and the entering of a terminate
vertex along with the flag. -/
structure Bears (m : Model μ δ) (A : Action μ δ → Prop) (ends : Bool) (J : Run μ δ σ → Prop) : Prop where
  enter : ∀ run element s, ¬ (Event.entered element).Ends m → J run →
    J { run.note (.entered element) with outside := s }
  leave : ∀ run element s, J run → J { run.note (.left element) with outside := s }
  act : ∀ run action trigger cause, A action → J run → J ((run.note (.acted cause)).update (action trigger))
  record : ∀ run r v, m.isState v = true → J run → J (run.update (·.setCurrent r v))
  terminate : ends = true → ∀ run v s, m.IsEnd v → J run →
    J (({ run.note (.entered (.vertex v)) with outside := s } : Run μ δ σ).update (·.setTerminated true))
  recorded : ∀ run r v, J run → run.inst.current? r = some v → ends = true ∨ ¬ m.IsEnd v

structure Pauses (m : Model μ δ) (J : Run μ δ σ → Prop) (E : Halt → Run μ δ σ → Prop) : Prop where
  halt : ∀ halt run, J run → E halt run
  cut : ∀ run v s, m.IsEnd v → J run → E .outOfFuel { run.note (.entered (.vertex v)) with outside := s }

/-- What follows from a transition on the list that is not out of a state is on the list, and none of the targets is a
terminate vertex, unless `ends`. -/
structure Drawn (m : Model μ δ) (ends : Bool) (U : TransitionId → Prop) : Prop where
  initial : ∀ t record, m.transition? t = some record → m.isInitial record.source = true → U t
  branch : ∀ t record u, U t → m.transition? t = some record → record.target = some u → m.isBranch u = true →
    ∀ next ∈ m.outgoing u, U next
  target : ∀ t record u, U t → m.transition? t = some record → record.target = some u → ends = true ∨ ¬ m.IsEnd u

section
variable (hJ : Bears m A ends J) (hE : Pauses m J E) (h : m.Arena) (hA : m.Acts A)
include hJ hE h hA

theorem Bears.does {k : Nat} (mode : Mode μ)
    (htraverse : ∀ deep, ∀ j < k, ∀ t record, m.transition? t = some record → m.isInitial record.source = true →
      Triple J (traverse m (m.compileWith plainly) c j { mode with deep } t) (fun _ => J) E)
    {l : List (Step μ δ)} (hl : m.Ordered A ends l) :
    Does m (m.compileWith plainly) c E k mode J l J := by
  have hfuel : ∀ run, J run → E .outOfFuel run := hE.halt _
  -- A step may perform sequences of its own, with less fuel; with the fuel given the induction is on the sequence.
  induction k using Nat.strongRecOn generalizing mode l with
  | ind k ih =>
  have hperform : ∀ deep, ∀ j < k, ∀ l, m.Ordered A ends l →
      Triple J (perform m (m.compileWith plainly) c j { mode with deep } l) (fun _ => J) E := fun deep j hj l hl =>
    ih j hj { mode with deep } (fun deep' i hi => htraverse deep' i (by omega)) hl j (Nat.le_refl j)
  induction hl with
  | nil => exact .nil fun _ hr => hr
  | @ends v l hends hv _ ihl =>
    let entered : Run μ δ σ → Prop := fun run =>
      ∃ start s, J start ∧ run = { start.note (.entered (.vertex v)) with outside := s }
    have hcut : ∀ run, entered run → E .outOfFuel run := by
      rintro _ ⟨start, s, hstart, rfl⟩
      exact hE.cut start v s hv hstart
    refine .cons (R := entered) hfuel (fun j _ => ?_) (.cons (R := J) hcut (fun j _ => ?_) ihl)
    · exact triple_announceEnter hfuel fun run s hr => ⟨run, s, hr, rfl⟩
    · refine triple_terminate hcut ?_
      rintro _ ⟨start, s, hstart, rfl⟩
      exact hJ.terminate hends start v s hv hstart
  | @cons s l hs _ ihl =>
    refine .cons hfuel (fun j hj => ?_) ihl
    cases s with
    | announceEnter element =>
      refine triple_announceEnter hfuel fun run s hr => hJ.enter run element s ?_ hr
      cases element with
      | vertex v => exact hs
      | region r => exact id
    | announceLeave element => exact triple_announceLeave hfuel fun run s hr => hJ.leave run element s hr
    | act cause action => exact triple_act hfuel fun run hr => hJ.act run action mode.trigger cause hs hr
    | record r v => exact triple_record hfuel fun run hr => hJ.record run r v hs hr
    | terminate => exact hs.elim
    | leaveRegion r =>
      refine triple_leaveRegion hfuel (fun _ _ hr _ _ => hE.halt _ _ hr) (fun _ hr _ => hr) fun v i hi => ?_
      exact (hperform false i (by omega) _ (.of_plain fun s hs => (departing_leaveVertex v s hs).plain hA)).pre fun _ hr => hr.1
    | enterRegion r initial kind =>
      refine triple_enterRegion_either (R := J) hfuel (fun _ _ hr _ _ => hE.halt _ _ hr) (fun _ _ hr => hr)
        (fun run v hr hv => hJ.recorded run r v hr hv) (fun v hv => Or.inr (not_isEnd_of_isInitial (hs v hv)))
        (fun deep v hv i hi => ?_) fun deep v _ i hi => ?_
      · exact hperform deep i (by omega) _ (ordered_beginEnterVertex hA hv)
      · exact hperform deep i (by omega) _ (ordered_endEnterVertex h hA v)
    | traverse t =>
      obtain ⟨record, hrec, hi⟩ := hs
      exact triple_traverseStep hfuel fun i hlt => htraverse mode.deep i (by omega) t record hrec hi

theorem Bears.fires {k : Nat} {trigger : Trigger μ} {t : TransitionId} {record : Transition μ δ}
    {P Q : Run μ δ σ → Prop} (hrec : m.transition? t = some record) (hfuel : ∀ run, P run → E .outOfFuel run)
    (hfired : ∀ run, P run → J (run.note (.fired t trigger run.inst))) (hanswer : Aloof J)
    (harrived : ∀ run l, J run → J { run with arrived := l }) (hdone : ∀ run, J run → Q run)
    (htarget : ∀ u, record.target = some u → ends = true ∨ ¬ m.IsEnd u)
    (hinitial : ∀ j < k, ∀ t' record', m.transition? t' = some record' → m.isInitial record'.source = true →
      Triple J (follow m (m.compileWith plainly) c j trigger t') (fun _ => J) E)
    (hbranch : ∀ u, record.target = some u → m.isBranch u = true → ∀ next ∈ m.outgoing u, ∀ j < k,
      Triple J (follow m (m.compileWith plainly) c j trigger next) (fun _ => Q) E) :
    Triple P (follow m (m.compileWith plainly) c k trigger t) (fun _ => Q) E := by
  refine triple_follow hfuel hrec (route?_compileWith (by simp [hrec])) hfired hanswer (fun i j hj => ?_)
    (fun _ run hr => hdone run hr) (fun _ _ hr _ _ => hE.halt _ _ hr) (fun u _ _ run hr => hdone _ (harrived run _ hr))
    (fun _ _ _ _ run hr => hdone run hr) hbranch (fun _ _ _ _ _ hr => hE.halt _ _ hr) fun _ _ _ _ run hr => hdone run hr
  have hordered : m.Ordered A ends ((m.route plainly t).steps i) :=
    ordered_route h hA (fun record' hrec' u hu => htarget u (by rw [hrec] at hrec'; cases hrec'; exact hu)) i
  refine (Bears.does hJ hE h hA _ (fun deep i' hi' t' record' hrec' hi => ?_) hordered j (Nat.le_refl j)).pre
    fun _ hr => hr.1
  exact triple_traverse (hE.halt _) (fun i'' hi'' => hinitial i'' (by omega) t' record' hrec' hi) (fun _ _ hr => hr)
    nofun

theorem Bears.follow (hU : Drawn m ends U) (hanswer : Aloof J)
    (hfired : ∀ run t trigger, U t → J run → J (run.note (.fired t trigger run.inst)))
    (harrived : ∀ run l, J run → J { run with arrived := l }) (k : Nat) {trigger : Trigger μ} {t : TransitionId}
    (ht : U t) {record : Transition μ δ} (hrec : m.transition? t = some record) :
    Triple J (follow m (m.compileWith plainly) c k trigger t) (fun _ => J) E := by
  induction k using Nat.strongRecOn generalizing t record with
  | ind k ih =>
  refine Bears.fires hJ hE h hA hrec (hE.halt _) (fun run hr => hfired run t trigger ht hr) hanswer harrived
    (fun _ hr => hr) (fun u hu => hU.target t record u ht hrec hu) (fun j hj t' record' hrec' hi => ?_)
    fun u hu hb next hnext j hj => ?_
  · exact ih j hj (hU.initial t' record' hrec' hi) hrec'
  · obtain ⟨record', hrec', _⟩ := h.source_of_mem_outgoing hnext
    exact ih j hj (hU.branch t record u ht hrec hu hb next hnext) hrec'

end

/-! ## Transitions that no state has fired -/

section
variable {Q : Event μ δ → Prop} {N : Instance δ → Prop}

theorem not_ends_of_isAnswer {e : Event μ δ} (he : IsAnswer e) : ¬ e.Ends m := by
  cases e <;> first | exact id | cases he

theorem aloof_running : Aloof (Running m N : Run μ δ σ → Prop) := fun _ _ _ he hr =>
  hr.tell (not_ends_of_isAnswer he) rfl rfl id

theorem patient_running : Patient c (Running m N : Run μ δ σ → Prop) where
  offered _ _ _ hr := hr.tell id rfl rfl id
  reported _ _ hr := hr.tell id rfl rfl id

theorem pauses_running : Pauses m (Running m N : Run μ δ σ → Prop) (Halted m Q N) where
  halt halt _ hr := hr.concluded.halted halt
  cut _ v _ _ hr := ⟨Trails.cons (e := .entered (.vertex v)) (trails_of_endless hr.endless)
    fun ⟨x, hx, hends⟩ => absurd hends (hr.endless x hx), fun hne => absurd rfl hne⟩

end

def OutOfPseudo (m : Model μ δ) (t : TransitionId) : Prop :=
  ∃ record, m.transition? t = some record ∧ m.isState record.source = false

theorem drawn_outOfPseudo (h : m.Arena) : Drawn m true (OutOfPseudo m) where
  initial _ record hrec hi := ⟨record, hrec, isState_eq_false_of_isInitial hi⟩
  branch _ _ u _ _ _ hb next hnext := by
    obtain ⟨record, hrec, rfl⟩ := h.source_of_mem_outgoing hnext
    exact ⟨record, hrec, Bool.eq_false_iff.mpr fun hs => by rw [isBranch_of_isState hs] at hb; cases hb⟩
  target _ _ _ _ _ _ := Or.inl rfl

theorem drawn_unbidden (hends : m.EndsOnPrompt) : Drawn m false m.Unbidden where
  initial _ _ hrec hi := .initial hrec hi
  branch _ _ _ ht hrec hu hb _ hnext := .branch ht hrec hu hb hnext
  target t record u ht hrec hu := Or.inr (hends t record u ht hrec hu)

variable {N : Instance δ → Prop}

theorem isOnward_fired {t : TransitionId} (ht : OutOfPseudo m t) (trigger : Trigger μ) (i : Instance δ) :
    (Event.fired t trigger i).IsOnward m := ⟨trigger, rfl, ht⟩

theorem bears_onward : Bears m Action.KeepsTermination true
    (Concluded m (Event.IsOnward m) fun _ => True : Run μ δ σ → Prop) where
  enter _ _ _ he hr := hr.tell he ⟨.initialise, trivial⟩ rfl rfl id
  leave _ element _ hr := hr.tell (e := .left element) id ⟨.initialise, trivial⟩ rfl rfl id
  act run _ trigger cause ha hr :=
    hr.tell (e := .acted cause) id ⟨.initialise, trivial⟩ rfl (ha trigger run.inst) id
  record _ _ _ _ hr := hr.congr rfl rfl id
  terminate _ _ v _ _ hr := ⟨Trails.cons (e := .entered (.vertex v)) hr.trails fun _ => ⟨.initialise, trivial⟩, nofun⟩
  recorded _ _ _ _ _ := Or.inl rfl

theorem bears_running : Bears m (fun a => Action.KeepsTermination a ∧ m.Spares a) false
    (Running m m.Spared : Run μ δ σ → Prop) where
  enter _ _ _ he hr := hr.tell he rfl rfl id
  leave _ element _ hr := hr.tell (e := .left element) id rfl rfl id
  act run _ trigger cause ha hr := hr.tell (e := .acted cause) id rfl (ha.1 trigger run.inst) (ha.2 trigger run.inst)
  record _ _ _ hs hr := hr.congr rfl rfl fun hspared => hspared.setCurrent (not_isEnd_of_isState hs)
  terminate := nofun
  recorded _ r v hr hv := Or.inr (hr.inst r v hv)

theorem pauses_onward : Pauses m (Concluded m (Event.IsOnward m) fun _ => True : Run μ δ σ → Prop)
    (Halted m (Event.IsOnward m) fun _ => True) where
  halt halt _ hr := hr.halted halt
  cut _ v _ _ hr := ⟨Trails.cons (e := .entered (.vertex v)) hr.trails fun _ => ⟨.initialise, trivial⟩,
    fun hne => absurd rfl hne⟩

theorem aloof_onward : Aloof (Concluded m (Event.IsOnward m) fun _ => True : Run μ δ σ → Prop) :=
  fun _ e _ he hr => hr.tell (not_ends_of_isAnswer he) ⟨.initialise, by cases e <;> trivial⟩ rfl rfl id

section
variable (h : m.Arena) (k : Nat) {trigger : Trigger μ} {t : TransitionId} {record : Transition μ δ}
include h

theorem triple_follow_outOfPseudo (hA : m.Acts Action.KeepsTermination) (ht : OutOfPseudo m t) :
    Triple (Concluded m (Event.IsOnward m) fun _ => True : Run μ δ σ → Prop)
      (follow m (m.compileWith plainly) c k trigger t) (fun _ => Concluded m (Event.IsOnward m) fun _ => True)
      (Halted m (Event.IsOnward m) fun _ => True) := by
  obtain ⟨record, hrec, _⟩ := id ht
  exact bears_onward.follow pauses_onward h hA (drawn_outOfPseudo h) aloof_onward
    (fun run t trigger ht hr => hr.tell id (isOnward_fired ht trigger run.inst) rfl rfl id)
    (fun _ _ hr => hr.congr rfl rfl id) k ht hrec

theorem triple_follow_onward (hA : m.Acts Action.KeepsTermination) (hrec : m.transition? t = some record) :
    Triple (Running m fun _ => True : Run μ δ σ → Prop) (follow m (m.compileWith plainly) c k trigger t)
      (fun _ => Concluded m (Event.IsOnward m) fun _ => True) (Halted m (Event.IsOnward m) fun _ => True) := by
  refine bears_onward.fires pauses_onward h hA hrec (fun _ hr => hr.concluded.halted _) (fun run hr => ?_) aloof_onward
    (fun _ _ hr => hr.congr rfl rfl id) (fun _ hr => hr) (fun _ _ => Or.inl rfl) (fun j _ t' record' hrec' hi => ?_)
    fun u hu hb next hnext j hj => ?_
  · exact Running.concluded (hr.tell (e := .fired t trigger run.inst) id rfl rfl id)
  · exact triple_follow_outOfPseudo h j hA ⟨record', hrec', isState_eq_false_of_isInitial hi⟩
  · obtain ⟨record', hrec', rfl⟩ := h.source_of_mem_outgoing hnext
    exact triple_follow_outOfPseudo h j hA
      ⟨record', hrec', Bool.eq_false_iff.mpr fun hs => by rw [isBranch_of_isState hs] at hb; cases hb⟩

section
variable (hends : m.EndsOnPrompt) (hA : m.Acts fun a => Action.KeepsTermination a ∧ m.Spares a)
include hends hA

theorem triple_follow_unbidden {Q : Event μ δ → Prop} (ht : m.Unbidden t) (hrec : m.transition? t = some record) :
    Triple (Running m m.Spared : Run μ δ σ → Prop) (follow m (m.compileWith plainly) c k trigger t)
      (fun _ => Running m m.Spared) (Halted m Q m.Spared) :=
  bears_running.follow pauses_running h hA (drawn_unbidden hends) aloof_running
    (fun _ _ _ _ hr => hr.tell id rfl rfl id) (fun _ _ hr => hr.congr rfl rfl id) k ht hrec

theorem triple_traverse_unbidden {Q : Event μ δ → Prop} {mode : Mode μ} (hnested : mode.nested = true)
    (hrec : m.transition? t = some record) (hi : m.isInitial record.source = true) :
    Triple (Running m m.Spared : Run μ δ σ → Prop) (traverse m (m.compileWith plainly) c k mode t)
      (fun _ => Running m m.Spared) (Halted m Q m.Spared) :=
  triple_traverse (fun _ hr => hr.concluded.halted _)
    (fun j _ => triple_follow_unbidden h j hends hA (.initial hrec hi) hrec) (fun _ _ hr => hr)
    fun hn => by rw [hnested] at hn; cases hn

omit h hends hA in
theorem does_end {n : Nat} {mode : Mode μ} {u : VertexId} :
    Does m (m.compileWith plainly) c (Halted m (fun _ => False) m.Spared) n mode (Running m m.Spared : Run μ δ σ → Prop)
      [.announceEnter (.vertex u), .terminate] (Concluded m (fun _ => False) m.Spared) := by
  let entered : Run μ δ σ → Prop := fun run => Trails m (fun _ => False) run.events
  have hcut : ∀ run, entered run → Halted m (fun _ => False) m.Spared .outOfFuel run :=
    fun _ hr => ⟨hr, fun hne => absurd rfl hne⟩
  refine .cons (R := entered) (fun _ hr => hr.concluded.halted _) (fun _ _ => ?_) (.single hcut fun _ _ => ?_)
  · refine triple_announceEnter (fun _ hr => hr.concluded.halted _) fun run s hr => ?_
    exact (trails_of_endless hr.endless).cons fun ⟨x, hx, hends⟩ => absurd hends (hr.endless x hx)
  · exact triple_terminate hcut fun _ hr => ⟨hr, nofun⟩

theorem triple_follow_silent (hrec : m.transition? t = some record) :
    Triple (Running m m.Spared : Run μ δ σ → Prop) (follow m (m.compileWith plainly) c k trigger t)
      (fun _ => Concluded m (fun _ => False) m.Spared) (Halted m (fun _ => False) m.Spared) := by
  induction k using Nat.strongRecOn generalizing t record with
  | ind k ih =>
  have hfired : ∀ run : Run μ δ σ, Running m m.Spared run → Running m m.Spared (run.note (.fired t trigger run.inst)) :=
    fun _ hr => hr.tell id rfl rfl id
  -- If the transition leads to a terminate vertex, then its last two steps enter it, and what comes before them leaves
  -- the instance running. If not, then it may lead on from a branch.
  by_cases hend : ∃ u, record.target = some u ∧ m.IsEnd u
  · obtain ⟨u, hu, hend⟩ := hend
    have hunique : ∀ u', record.target = some u' → u' = u := fun u' hu' => by
      rw [hu] at hu'
      exact (Option.some.inj hu').symm
    refine triple_follow_by (R := Concluded m (fun _ => False) m.Spared) (fun _ hr => hr.concluded.halted _) hrec
      (route?_compileWith (by simp [hrec])) hfired (fun i j hj => ?_) (fun _ _ hr => hr)
      (fun _ _ hr _ _ => hr.halted _) (fun u' hu' hs => ?_) (fun _ _ _ _ _ hr => hr)
      fun u' reached kind hu' hv hf hk => ?_
    · obtain ⟨l, hl, hsteps⟩ := ordered_route_append h hA plainly hrec hu i
      obtain ⟨hbegin, hnothing⟩ := hend.enter_eq plainly
      rw [hsteps, hbegin, hnothing, List.append_nil]
      have hway : Does m (m.compileWith plainly) c (Halted m (fun _ => False) m.Spared) j { trigger, nested := true }
          (Running m m.Spared) l (Running m m.Spared) :=
        bears_running.does pauses_running h hA _ (fun deep i' hi' t' record' hrec' hi =>
          triple_traverse_unbidden h i' hends hA rfl hrec' hi) hl
      exact ((hway.append does_end) j (Nat.le_refl j)).pre fun _ hr => hr.1
    · exact absurd hend (hunique u' hu' ▸ not_isEnd_of_isState hs)
    · have hb : m.isBranch u' = true := by simp [Model.isBranch, hv, Vertex.pseudoKind?, hf, hk]
      rw [hunique u' hu', hend.isBranch_eq_false] at hb
      cases hb
  · refine bears_running.fires pauses_running h hA hrec (fun _ hr => hr.concluded.halted _) hfired aloof_running
      (fun _ _ hr => hr.congr rfl rfl id) (fun _ hr => hr.concluded) (fun u hu => Or.inr fun hu' => hend ⟨u, hu, hu'⟩)
      (fun j _ t' record' hrec' hi => triple_follow_unbidden h j hends hA (.initial hrec' hi) hrec')
      fun u hu hb next hnext j hj => ?_
    obtain ⟨record', hrec', _⟩ := h.source_of_mem_outgoing hnext
    exact ih j hj hrec'

end

end

/-! ## One offer after the other -/

structure Quits (m : Model μ δ) (plainly : RegionId → Bool) (c : Context σ) (Q : Event μ δ → Prop)
    (N : Instance δ → Prop) (k : Nat) : Prop where
  complete : ∀ v, Triple (Concluded m Q N) (complete m (m.compileWith plainly) c k v) (fun _ => Concluded m Q N)
    (Halted m Q N)
  offer : ∀ trigger v, Triple (Concluded m Q N) (offer m (m.compileWith plainly) c k trigger v)
    (fun _ => Concluded m Q N) (Halted m Q N)

section
variable {Q : Event μ δ → Prop} {N : Instance δ → Prop} {k : Nat} (ih : ∀ j < k, Quits m plainly c Q N j)
include ih

theorem triple_concluded_traverse {P : Run μ δ σ → Prop} (hP : ∀ run, P run → Concluded m Q N run) (mode : Mode μ)
    (t : TransitionId) (hfollow : ∀ j < k, Triple P (follow m (m.compileWith plainly) c j mode.trigger t)
      (fun _ => Concluded m Q N) (Halted m Q N)) :
    Triple P (traverse m (m.compileWith plainly) c k mode t) (fun _ => Concluded m Q N) (Halted m Q N) :=
  triple_traverse_keeps (fun run hr => (hP run hr).halted _) (fun _ hr => hr.halted _)
    (fun _ hr => hr.congr rfl rfl id) hfollow fun v j hj => (ih j hj).complete v

theorem triple_concluded_complete (v : VertexId) : Triple (Concluded m Q N)
    (complete m (m.compileWith plainly) c k v) (fun _ => Concluded m Q N) (Halted m Q N) :=
  triple_complete (fun _ hr => hr.halted _) (fun _ hr _ => hr.halted _) (fun _ hr _ => hr.halted _) (fun _ hr _ => hr)
    fun j hj => ((ih j hj).offer (.completion v) v).pre fun _ hr => hr.1

theorem triple_concluded_offer (hfollow : ∀ j < k, ∀ trigger t, (m.transition? t).isSome →
      Triple (Running m N) (follow m (m.compileWith plainly) c j trigger t) (fun _ => Concluded m Q N) (Halted m Q N))
    (h : m.Arena) (trigger : Trigger μ) (v : VertexId) : Triple (Concluded m Q N)
      (offer m (m.compileWith plainly) c k trigger v) (fun _ => Concluded m Q N) (Halted m Q N) := by
  refine triple_offer (T := fun run => run.inst.terminated = false → Running m N run) (Y := Concluded m Q N)
    (N := Running m N) (fun _ hr => hr.halted _)
    (fun run hr hn => (hr.running hn).tell (e := .offered v trigger) id rfl rfl id) (fun _ hr _ => hr.halted _)
    (fun _ hr _ => hr) (fun _ _ _ hr hn => hr hn) (fun _ _ j hj => ?_) (fun _ j hj => (ih j hj).complete v)
    (fun _ hr _ => hr.concluded) (fun _ t j hj => ?_) fun _ count _ => ?_
  · have hpatient : Patient c (Running m N : Run μ δ σ → Prop) := patient_running
    have hbeneath : Triple (Concluded m Q N) (offerBeneath m (m.compileWith plainly) c j trigger v (m.regionsOf v))
        (fun _ => Concluded m Q N) (Halted m Q N) :=
      triple_offerBeneath_keeps (fun _ hr => hr.halted _) (fun _ hr _ => hr.halted _) fun _ _ current i hi =>
        ((ih i (by omega)).offer trigger current).pre fun _ hr => hr.1
    exact (hbeneath.withNo ((triple_of_not_consumed hpatient j).2 trigger v (m.regionsOf v))).pre fun _ hr =>
      ⟨(hr.1 hr.2).concluded, hr.1 hr.2⟩
  · refine Triple.assume fun run hr => ?_
    obtain ⟨record, hrec, _⟩ := source_of_enabled h (hr.2 ▸ List.mem_singleton_self t)
    exact (triple_concluded_traverse (fun i hi => ih i (by omega)) (fun _ hr => hr.concluded) { trigger } t
      fun i hi => hfollow i (by omega) trigger t (by simp [hrec])).start hr.1
  · exact (triple_report aloof_running fun _ hr => hr.concluded.halted _).conseq (fun _ hr => hr.1)
      (fun _ _ hr => hr.1.concluded) fun _ _ hr => hr

omit ih in
theorem quits (h : m.Arena) (hfollow : ∀ j trigger t, (m.transition? t).isSome →
      Triple (Running m N) (follow m (m.compileWith plainly) c j trigger t) (fun _ => Concluded m Q N) (Halted m Q N))
    (k : Nat) : Quits m plainly c Q N k := by
  induction k using Nat.strongRecOn with
  | ind k ih =>
  exact ⟨triple_concluded_complete ih, triple_concluded_offer ih (fun j _ => hfollow j) h⟩

end

/-! ## Opening -/

section
variable (h : m.Arena) (hends : m.EndsOnPrompt) (hA : m.Acts fun a => Action.KeepsTermination a ∧ m.Spares a)
variable {n : Nat} {mode : Mode μ}
include h hends hA

theorem does_endEnterPseudo_silent (v : VertexId) :
    Does m (m.compileWith plainly) c (Halted m (fun _ => False) m.Spared) n mode
      (Running m m.Spared : Run μ δ σ → Prop) (m.endEnterPseudo v) (Concluded m (fun _ => False) m.Spared) := by
  have hfollow : ∀ j trigger t, (m.transition? t).isSome → Triple (Running m m.Spared : Run μ δ σ → Prop)
      (follow m (m.compileWith plainly) c j trigger t) (fun _ => Concluded m (fun _ => False) m.Spared)
      (Halted m (fun _ => False) m.Spared) := fun j trigger t ht => by
    obtain ⟨record, hrec⟩ := Option.isSome_iff_exists.mp ht
    exact triple_follow_silent h j hends hA hrec
  rcases endEnterPseudo_cases m v with ⟨heq, _⟩ | ⟨t, rest, _, ho, heq⟩ <;> rw [heq]
  · exact .nil fun _ hr => hr.concluded
  · obtain ⟨record, hrec, _⟩ := h.source_of_mem_outgoing (t := t) (v := v) (by simp [ho])
    refine .single (fun _ hr => hr.concluded.halted _) fun j _ =>
      triple_traverseStep (fun _ hr => hr.concluded.halted _) fun j' _ => ?_
    exact triple_concluded_traverse (fun i _ => quits h hfollow i) (fun _ hr => hr.concluded) mode t
      fun i _ => hfollow i mode.trigger t (by simp [hrec])

theorem does_own_running {l : List (Step μ δ)} (hown : ∀ s ∈ l, s.IsBrief)
    (hl : m.Ordered (fun a => Action.KeepsTermination a ∧ m.Spares a) false l) :
    Does m (m.compileWith plainly) c (Halted m (fun _ => False) m.Spared) n mode (Running m m.Spared : Run μ δ σ → Prop)
      l (Running m m.Spared) := by
  intro j hj
  have hmode : perform m (m.compileWith plainly) c j mode l =
      perform m (m.compileWith plainly) c j { mode with nested := true } l := perform_congr (by rfl) hown j
  rw [hmode]
  exact bears_running.does pauses_running h hA { mode with nested := true }
    (fun deep i _ t record hrec hi => triple_traverse_unbidden h i hends hA rfl hrec hi) hl j (Nat.le_refl j)

theorem does_endEnterRegion_silent (hdeep : mode.deep = false) (r : RegionId) :
    Does m (m.compileWith plainly) c (Halted m (fun _ => False) m.Spared) n mode
      (fun run : Run μ δ σ => Running m m.Spared run ∧
        ((m.headKind? r).any (·.isHistory) = true → run.inst.current? r = none))
      (m.endEnterRegion plainly r) (Concluded m (fun _ => False) m.Spared) := by
  have hbegin : ∀ (mode : Mode μ) k v, m.isInitial v = true → Does m (m.compileWith plainly) c
      (Halted m (fun _ => False) m.Spared) k mode (Running m m.Spared : Run μ δ σ → Prop) (m.beginEnterVertex v)
      (Running m m.Spared) := fun mode k v hi =>
    does_own_running h hends hA (isBrief_beginEnterVertex v)
      (ordered_beginEnterVertex hA (Or.inr (not_isEnd_of_isInitial hi)))
  -- Nothing is recorded where history could look, so whichever way the region is entered it is entered by its head.
  rcases endEnterRegion_cases m plainly r with heq | ⟨v, hv, _, heq⟩ <;> rw [heq]
  · refine .single (fun _ hr => hr.1.concluded.halted _) fun k _ => triple_enterRegion
      (fun _ hr => hr.1.concluded.halted _) (fun _ _ hr _ _ => hr.1.concluded.halted _) (fun _ _ hr => hr.1.concluded)
      (fun v hhistory j _ => Triple.assume fun run hr => ?_) fun v hv j _ => ?_
    · rw [hdeep, Bool.false_or] at hhistory
      rw [hr.1.2 hhistory] at hr
      cases hr.2
    · have hi := isInitial_of_head? hv
      have hend : m.endEnterVertex plainly v = m.endEnterPseudo v :=
        endEnterVertex_of_not_isState (vertex?_isSome_of_isInitial hi) (isState_eq_false_of_isInitial hi)
      rw [hend]
      exact (Triple.bind (hbegin _ j v hi j (Nat.le_refl j)) fun _ =>
        does_endEnterPseudo_silent h hends hA v j (Nat.le_refl j)).pre fun _ hr => hr.1.1
  · exact ((hbegin mode n v (isInitial_of_head? hv)).append (does_endEnterPseudo_silent h hends hA v)).pre
      fun _ hr => hr.1

theorem triple_onInitialise_silent (ho : m.OpensAtOnce) {k : Nat} :
    Triple (fun run : Run μ δ σ => Running m m.Spared run ∧
        ∀ r ∈ m.regionsOf root, (m.headKind? r).any (·.isHistory) = true → run.inst.current? r = none)
      (perform m (m.compileWith plainly) c k { trigger := .initialise } (m.compileWith plainly).onInitialise)
      (fun _ => Concluded m (fun _ => False) m.Spared) (Halted m (fun _ => False) m.Spared) := by
  have hroot : m.Ordered (fun a => Action.KeepsTermination a ∧ m.Spares a) false (m.beginEnterVertex root) :=
    ordered_beginEnterVertex hA (Or.inr (not_isEnd_of_isState h.isState_root))
  have hown : ∀ l : List (Step μ δ), (∀ s ∈ l, s.IsBrief) → m.Ordered _ false l →
      Triple (Running m m.Spared : Run μ δ σ → Prop)
        (perform m (m.compileWith plainly) c k { trigger := .initialise } l) (fun _ => Running m m.Spared)
        (Halted m (fun _ => False) m.Spared) := fun l hown hl =>
    does_own_running h hends hA hown hl k (Nat.le_refl k)
  have hsteps : (m.compileWith plainly).onInitialise = m.beginEnterVertex root ++ m.endEnterVertex plainly root := rfl
  rw [hsteps, endEnterVertex_of_isState h.isState_root]
  -- The root has no region, or one, or more; where it opens at once there are no more.
  rcases hregions : m.regionsOf root with _ | ⟨q, _ | ⟨q', rest⟩⟩
  · rw [List.flatMap_nil, List.append_nil]
    exact (hown _ (isBrief_beginEnterVertex root) hroot).conseq (fun _ hr => hr.1) (fun _ _ hr => hr.concluded)
      fun _ _ hr => hr
  · rw [List.flatMap_singleton, ← List.append_assoc, perform_append]
    refine Triple.bind (R := fun _ run => Running m m.Spared run ∧
      ((m.headKind? q).any (·.isHistory) = true → run.inst.current? q = none)) ?_ fun _ =>
      does_endEnterRegion_silent h hends hA rfl q _ (Nat.le_refl _)
    have hopen := hown (m.beginEnterVertex root ++ beginEnterRegion q)
      (fun s hs => (List.mem_append.mp hs).elim (isBrief_beginEnterVertex root s) fun hs =>
        List.mem_singleton.mp hs ▸ trivial) (hroot.append (.cons trivial .nil))
    by_cases hhistory : (m.headKind? q).any (·.isHistory) = true
    · have hentry := ho.entry ⟨q, by simp [hregions], hhistory⟩
      exact (hopen.and (triple_beginRoot h hentry)).conseq (fun _ hr => ⟨hr.1, hr.2 q (by simp) hhistory⟩)
        (fun _ _ hr => ⟨hr.1, fun _ => hr.2⟩) fun _ _ hr => hr.1
    · exact hopen.conseq (fun _ hr => hr.1) (fun _ _ hr => ⟨hr, fun hh => absurd hh hhistory⟩) fun _ _ hr => hr
  · have hone := ho.regions
    rw [hregions] at hone
    simp at hone

end

theorem concluded_of_endsAs {Q : Event μ δ → Prop} {N : Instance δ → Prop} {P : Run μ δ σ → Prop} {α : Type}
    {x : Eval μ δ σ α} (hx : Triple P x (fun _ => Concluded m Q N) (Halted m Q N)) {start run : Run μ δ σ}
    (hstart : P start) {halt : Option Halt} (hr : EndsAs (x start) halt run) :
    Trails m Q run.events ∧ (halt ≠ some .outOfFuel → Concluded m Q N run) := by
  cases hres : x start with
  | ok a run' =>
    rw [hres] at hr
    obtain ⟨rfl, rfl⟩ := hr
    have hrun := hx.of_ok hstart hres
    exact ⟨hrun.trails, fun _ => hrun⟩
  | error e run' =>
    rw [hres] at hr
    obtain ⟨rfl, rfl⟩ := hr
    obtain ⟨htrails, hrun⟩ := hx.of_error hstart hres
    exact ⟨htrails, fun hne => hrun fun heq => hne (congrArg some heq)⟩

end Eval

/-! ## Calls -/

namespace Machine

variable {m : Machine μ δ} {Q : Event μ δ → Prop} {N : Instance δ → Prop} {P : Run μ δ σ → Prop} {c : Context σ}
variable {fuel : Nat} {i : Instance δ} {s : σ} {halt : Option Halt} {run : Run μ δ σ}

theorem concluded_initialise (hm : m.Sound) (hi : Running m.toModel N ({ inst := i, outside := s } : Run μ δ σ))
    (hP : P { inst := i, outside := s })
    (hopen : Triple P (Eval.perform m.toModel m.toModel.compile c fuel { trigger := .initialise }
      m.toModel.compile.onInitialise) (fun _ => Concluded m.toModel Q N) (Halted m.toModel Q N))
    (hr : EndsAs (m.initialise c fuel i s).2 halt run) :
    Trails m.toModel Q run.events ∧ (halt ≠ some .outOfFuel → Concluded m.toModel Q N run) := by
  cases hp : m.prepare? c with
  | none =>
    simp only [initialise, hp] at hr
    obtain ⟨_, rfl⟩ := hr
    exact ⟨hi.concluded.trails, fun _ => hi.concluded⟩
  | some m' =>
    rw [(initialise_eq hm hp fuel i s).2.2] at hr
    exact Eval.concluded_of_endsAs hopen hP hr

theorem concluded_evaluate (hm : m.Sound) (hi : Running m.toModel N ({ inst := i, outside := s } : Run μ δ σ))
    (hfollow : ∀ j trigger t, (m.transition? t).isSome → Triple (Running m.toModel N)
      (Eval.follow m.toModel m.toModel.compile c j trigger t) (fun _ => Concluded m.toModel Q N) (Halted m.toModel Q N))
    {message : μ} (hr : EndsAs (m.evaluate c fuel message i s).2 halt run) :
    Trails m.toModel Q run.events ∧ (halt ≠ some .outOfFuel → Concluded m.toModel Q N run) := by
  cases hp : m.prepare? c with
  | none =>
    have hn : i.terminated = false := hi.running
    simp only [evaluate, hn, hp] at hr
    obtain ⟨_, rfl⟩ := hr
    exact ⟨hi.concluded.trails, fun _ => hi.concluded⟩
  | some m' =>
    rw [(evaluate_eq hm hp fuel message hi.running s).2.2] at hr
    exact Eval.concluded_of_endsAs ((Eval.quits hm.arena hfollow fuel).offer (.message message) root) hi.concluded hr

/-- Once a terminate vertex has been entered in a call, nothing is offered in it and no state fires any more; unless
the fuel has run out the instance has terminated, and later messages do nothing. If it takes a state to fire to get to
a terminate vertex, it is the last thing that a message comes to, and an initialisation that opens at once. -/
theorem Built.comes_to_rest (hm : m.Built) (hA : m.Acts Action.KeepsTermination) (c : Context σ) (fuel : Nat)
    (hi : i.terminated = false) (s : σ) :
    (∀ halt run, (EndsAs (m.initialise c fuel i s).2 halt run ∨
        ∃ message, EndsAs (m.evaluate c fuel message i s).2 halt run) →
      Trails m.toModel (Event.IsOnward m.toModel) run.events ∧
      (halt ≠ some .outOfFuel → (∃ e ∈ run.events, e.Ends m.toModel) → run.inst.terminated = true ∧
        ∀ (m' : Machine μ δ) (c' : Context σ) fuel' message s',
          m'.evaluate c' fuel' message run.inst s' = (m', .ok false { inst := run.inst, outside := s' }))) ∧
    (m.EndsOnPrompt → m.Acts m.Spares → m.Spared i →
      (∀ message halt run, EndsAs (m.evaluate c fuel message i s).2 halt run →
        Trails m.toModel (fun _ => False) run.events) ∧
      (m.OpensAtOnce → (∀ r ∈ m.regionsOf root, (m.headKind? r).any (·.isHistory) = true → i.current? r = none) →
        ∀ halt run, EndsAs (m.initialise c fuel i s).2 halt run → Trails m.toModel (fun _ => False) run.events)) := by
  have h := hm.sound.arena
  have hfired : ∀ (c : Context σ) j trigger t, (m.transition? t).isSome → Triple (Running m.toModel fun _ => True)
      (Eval.follow m.toModel m.toModel.compile c j trigger t)
      (fun _ => Concluded m.toModel (Event.IsOnward m.toModel) fun _ => True)
      (Halted m.toModel (Event.IsOnward m.toModel) fun _ => True) := fun c j trigger t ht => by
    obtain ⟨record, hrec⟩ := Option.isSome_iff_exists.mp ht
    exact Eval.triple_follow_onward h j hA hrec
  -- An entry sequence goes on by the ways out of initial vertices only.
  have hopen : Triple (Concluded m.toModel (Event.IsOnward m.toModel) fun _ => True)
      (Eval.perform m.toModel m.toModel.compile c fuel { trigger := .initialise } m.toModel.compile.onInitialise)
      (fun _ => Concluded m.toModel (Event.IsOnward m.toModel) fun _ => True)
      (Halted m.toModel (Event.IsOnward m.toModel) fun _ => True) :=
    Eval.bears_onward.does Eval.pauses_onward h hA _ (fun deep j _ t record hrec hinitial =>
      Eval.triple_concluded_traverse (fun k _ => Eval.quits h (hfired c) k) (fun _ hr => hr) _ t fun k _ =>
        Eval.triple_follow_outOfPseudo h k hA ⟨record, hrec, Model.isState_eq_false_of_isInitial hinitial⟩)
      (Model.ordered_onInitialise h hA) fuel (Nat.le_refl fuel)
  have hstart : Running m.toModel (fun _ => True) ({ inst := i, outside := s } : Run μ δ σ) := ⟨hi, by simp, trivial⟩
  refine ⟨fun halt run hr => ?_, fun hends hS hspared => ?_⟩
  · obtain ⟨htrails, hconcluded⟩ : Trails m.toModel (Event.IsOnward m.toModel) run.events ∧ _ :=
      hr.elim (concluded_initialise hm.sound hstart hstart.concluded hopen) fun ⟨_, hr⟩ =>
        concluded_evaluate hm.sound hstart (hfired c) hr
    refine ⟨htrails, fun hne ⟨e, he, hends⟩ => ?_⟩
    have hterminated : run.inst.terminated = true :=
      Bool.not_eq_false _ |>.mp fun hn => ((hconcluded hne).running hn).endless e he hends
    exact ⟨hterminated, fun m' c' fuel' message s' => by simp [evaluate, hterminated]⟩
  · have hboth : m.Acts fun a => Action.KeepsTermination a ∧ m.Spares a := hA.and hS
    have hrunning : Running m.toModel m.Spared ({ inst := i, outside := s } : Run μ δ σ) := ⟨hi, by simp, hspared⟩
    refine ⟨fun message halt run hr => (concluded_evaluate hm.sound hrunning (fun j trigger t ht => ?_) hr).1,
      fun ho hrecords halt run hr => (concluded_initialise hm.sound hrunning ⟨hrunning, hrecords⟩
        (Eval.triple_onInitialise_silent h hends hboth ho) hr).1⟩
    obtain ⟨record, hrec⟩ := Option.isSome_iff_exists.mp ht
    exact Eval.triple_follow_silent h j hends hboth hrec

def vase : Machine String Unit := (ofName "m").edited
  [.addState (.state root) "table", .addState (.region ⟨0⟩) "shelf", .addPseudoState (.region ⟨0⟩) "start" .initial,
    .addPseudoState (.region ⟨0⟩) "broken" .terminate, .addTransition (.between ⟨3⟩ ⟨1⟩),
    .addTransition ((Draft.between ⟨1⟩ ⟨2⟩).on "move"), .addTransition ((Draft.between ⟨1⟩ ⟨4⟩).on "drop")]

def onTable : Instance Unit := ({ data := () } : Instance Unit).setCurrent ⟨0⟩ ⟨1⟩

theorem endsOnPrompt_vase : vase.EndsOnPrompt := by
  refine Model.endsOnPrompt_of_states fun t record u hrec hi hu => ?_
  have hall : ∀ t ∈ vase.transitionIds, ∀ record ∈ vase.transition? t, vase.isInitial record.source = true →
      ∀ u ∈ record.target, vase.isState u = true := by decide +kernel
  exact hall t (Model.mem_transitionIds hrec) record hrec hi u hu

theorem comes_to_rest_vase : ∃ run, run = ran (vase.evaluate Context.strict 50 "drop" onTable ()).2 ∧
    (∃ e ∈ run.events, e.Ends vase.toModel) ∧ Trails vase.toModel (fun _ => False) run.events ∧
    run.inst.terminated = true ∧
    vase.evaluate Context.strict 50 "move" run.inst () = (vase, .ok false { inst := run.inst, outside := () }) ∧
    Trails vase.toModel (fun _ => False) (ran (vase.initialise Context.strict 50 onTable ()).2).events := by
  have hbuilt : vase.Built := (Built.ofName "m").edited _
  have hkeeps : vase.Acts Action.KeepsTermination :=
    acts_edited "m" (by simp [Edit.Uses, Draft.between, Draft.on, Draft.guarded])
  have hspares : vase.Acts vase.Spares := acts_edited "m" (by simp [Edit.Uses, Draft.between, Draft.on, Draft.guarded])
  have hempty : vase.Spared { data := () } := fun _ _ hv => by cases hv
  have hspared : vase.Spared onTable := hempty.setCurrent (by decide +kernel)
  have hopens : vase.OpensAtOnce := .of_plain (by decide +kernel) (by decide +kernel)
  have hdropped : answer? (vase.evaluate Context.strict 50 "drop" onTable ()).2 = some true := by decide +kernel
  have hopened : answer? (vase.initialise Context.strict 50 onTable ()).2 = some () := by decide +kernel
  have hdrop : EndsAs (vase.evaluate Context.strict 50 "drop" onTable ()).2 none
      (ran (vase.evaluate Context.strict 50 "drop" onTable ()).2) := by
    rw [eq_ok_of_answer? hdropped]
    exact ⟨rfl, rfl⟩
  have hopen : EndsAs (vase.initialise Context.strict 50 onTable ()).2 none
      (ran (vase.initialise Context.strict 50 onTable ()).2) := by
    rw [eq_ok_of_answer? hopened]
    exact ⟨rfl, rfl⟩
  have hended : ∃ e ∈ (ran (vase.evaluate Context.strict 50 "drop" onTable ()).2).events, e.Ends vase.toModel := by
    decide +kernel
  obtain ⟨hcalls, hsilent⟩ := Built.comes_to_rest hbuilt hkeeps Context.strict 50 (i := onTable) rfl ()
  obtain ⟨hevaluate, hinitialise⟩ := hsilent endsOnPrompt_vase hspares hspared
  obtain ⟨_, hlater⟩ := hcalls none _ (Or.inr ⟨"drop", hdrop⟩)
  obtain ⟨hterminated, hnothing⟩ := hlater (by simp) hended
  exact ⟨_, rfl, hended, hevaluate "drop" none _ hdrop, hterminated, hnothing vase Context.strict 50 "move" (),
    hinitialise hopens (by decide +kernel) none _ hopen⟩

/-- One region of the root leads straight to a terminate vertex, the other to a state with something to do. -/
def trap : Machine String Unit := (ofName "m").edited
  [.addRegion root "left", .addRegion root "right", .addPseudoState (.region ⟨0⟩) "start" .initial,
    .addPseudoState (.region ⟨0⟩) "end" .terminate, .addTransition (.between ⟨1⟩ ⟨2⟩),
    .addPseudoState (.region ⟨1⟩) "start" .initial, .addState (.region ⟨1⟩) "b", .addTransition (.between ⟨3⟩ ⟨4⟩),
    .onEntry ⟨4⟩ fun _ i => i]

theorem not_at_rest_trap : trap.Built ∧ trap.isWellFormed = true ∧ trap.Acts Action.KeepsTermination ∧
    ¬ Trails trap.toModel (fun e => e.cause? = none)
      (ran (trap.initialise Context.strict 50 { data := () } ()).2).events :=
  ⟨(Built.ofName "m").edited _, by decide +kernel,
    acts_edited "m" (by simp [Edit.Uses, Draft.between, Action.KeepsTermination]), by decide +kernel⟩

end Machine

end Statechart
