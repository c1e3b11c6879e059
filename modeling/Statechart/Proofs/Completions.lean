import Statechart.Validation
import Statechart.Proofs.Ledger

/-!
# Completions

A state is tried for completion when a transition has led to it and when something beneath it has consumed a trigger.
A state that cannot become active or complete in any other way is never found complete between calls with a transition
that leaves it on completion. Others may be: the root, what is entered on the way to something beneath it, what history
brings back, and what is beneath a region that may keep its record when it is entered. But where only messages from
within bring the regions of a state to their end it does not matter how the state is entered.
-/

namespace Statechart

variable {μ δ σ : Type}

namespace Model

/-- Whatever makes `s` active or complete leads to it or comes from beneath it. -/
structure Secluded (m : Model μ δ) (s : VertexId) : Prop where
  ne_root : s ≠ root
  /-- What leads into a region of `s` comes from there. -/
  enclosed : ∀ q ∈ m.regionsOf s, ∀ t ∈ m.transitionIds, ∀ record ∈ m.transition? t, ∀ u ∈ record.target,
    m.Above q u → m.Above q record.source
  /-- History does not bring `s` back. -/
  fresh : ∀ r ∈ m.parent? s, ¬ m.Recalls r

/-- `s` has regions, and only messages from within bring them to their end. -/
def Lasting (m : Model μ δ) (s : VertexId) : Prop := m.regionsOf s ≠ [] ∧ ∀ q ∈ m.regionsOf s, m.Lasts q

/-- `s` is tried for completion whenever it may have become active and complete. -/
structure Attended (m : Model μ δ) (s : VertexId) : Prop where
  isState : m.isState s = true
  /-- Entering a region above `s` by default records something. -/
  leadsOn : ∀ r ∈ (m.path s).map Prod.fst, m.LeadsOn r
  secluded_or_lasting : m.Secluded s ∨ m.Lasting s

def CompletesOutwards (m : Model μ δ) : Prop :=
  ∀ t ∈ m.transitionIds, ∀ record ∈ m.transition? t, m.isState record.source = true → record.guard = .completion →
    record.kind = .external

instance decidableCompletesOutwards (m : Model μ δ) : Decidable m.CompletesOutwards :=
  inferInstanceAs (Decidable (∀ t ∈ m.transitionIds, ∀ record ∈ m.transition? t, _ = true → _ = _ → _ = _))

/-- Nothing else leaves a state on a completion. -/
def CompletesAlone (m : Model μ δ) : Prop :=
  ∀ t ∈ m.transitionIds, ∀ record ∈ m.transition? t, m.isState record.source = true → record.guard ≠ .completion →
    ∀ s i, record.guard.check record.source (.completion s) i = false

/-- Attended states that are due are waited for, or beneath what is pending, or one of their own regions is pending
that will not come to its end. -/
def Awaited (m : Model μ δ) (W : Set VertexId) (Q : Set RegionId) (i : Instance δ) : Prop :=
  ∀ s, m.Attended s → m.Due i s → s ∈ W ∨ (∃ q ∈ Q, m.Above q s) ∨ m.Lasting s ∧ ∃ q ∈ Q, q ∈ m.regionsOf s

variable {m : Model μ δ} {W : Set VertexId} {Q : Set RegionId} {i i' : Instance δ}

section
variable (h : m.Arena)
include h

theorem Due.congr {s : VertexId} (hs : m.isState s = true) (habove : ∀ r, m.Above r s → i'.current? r = i.current? r)
    (howned : ∀ r ∈ m.regionsOf s, i'.current? r = i.current? r) (hd : m.Due i' s) : m.Due i s := by
  obtain ⟨ha, hc, hcompletion⟩ := hd
  rw [isActive_congr h (vertex?_isSome_of_isState hs) habove] at ha
  rw [isComplete?_congr howned] at hc
  exact ⟨ha, hc, hcompletion⟩

theorem Awaited.outside {r : RegionId} {s : VertexId} (hs : m.Attended s) (hr : ¬ m.Above r s)
    (howner : m.Lasting s → r ∉ m.regionsOf s) (hd : m.Due i s)
    (hw : m.Awaited (W ∪ {w | m.Above r w}) (Q ∪ {q | m.Encloses r q}) i) :
    s ∈ W ∨ (∃ q ∈ Q, m.Above q s) ∨ m.Lasting s ∧ ∃ q ∈ Q, q ∈ m.regionsOf s := by
  have hknown := vertex?_isSome_of_isState hs.isState
  rcases hw s hs hd with (hw | hw) | ⟨q, hq | hq, hqs⟩ | ⟨hl, q, hq | hq, hqs⟩
  · exact Or.inl hw
  · exact absurd hw hr
  · exact Or.inr (Or.inl ⟨q, hq, hqs⟩)
  · exact absurd (above_trans h hq s hknown hqs) hr
  · exact Or.inr (Or.inr ⟨hl, q, hq, hqs⟩)
  · rcases hq with rfl | ⟨o, ho, hro⟩
    · exact absurd hqs (howner hl)
    · rw [h.mem_regionsOf.mp hqs] at ho; cases ho
      exact absurd hro hr

theorem Awaited.setCurrent {r : RegionId} {v o : VertexId} (ho : m.owner? r = some o)
    (hoW : m.Secluded o → m.Attended o → o ∈ W) (hend : m.Lasting o → m.Attended o → m.isFinal v = true → o ∈ W)
    (hvW : m.Secluded v → m.Attended v → v ∈ W)
    (hw : m.Awaited (W ∪ {w | m.Above r w}) (Q ∪ {q | m.Encloses r q}) i) :
    m.Awaited W (Q ∪ {q | q ∈ m.regionsOf v}) (i.setCurrent r v) := by
  intro s hs hdue
  have hknown := vertex?_isSome_of_isState hs.isState
  by_cases hr : m.Above r s
  · -- The way to an active state beneath `r` goes through `v` now.
    obtain ⟨w, hw, _, hway⟩ := current?_of_above h hknown hdue.1 hr
    rw [Instance.current?_setCurrent, if_pos rfl] at hw; cases hw
    rcases hway with rfl | ⟨q, hq, hqs⟩
    · rcases hs.secluded_or_lasting with hsec | hl
      · exact Or.inl (hvW hsec hs)
      · obtain ⟨q, hq⟩ := List.exists_mem_of_ne_nil _ hl.1
        exact Or.inr (Or.inr ⟨hl, q, Or.inr hq, hq⟩)
    · exact Or.inr (Or.inl ⟨q, Or.inr (h.mem_regionsOf.mpr hq), hqs⟩)
  by_cases hso : s = o
  · subst hso
    rcases hs.secluded_or_lasting with hsec | hl
    · exact Or.inl (hoW hsec hs)
    · -- The owner is complete only if `v` is the end of the region.
      obtain ⟨w, hw, hfinal⟩ := exists_final_of_isComplete hdue.2.1 (h.mem_regionsOf.mpr ho)
      rw [Instance.current?_setCurrent, if_pos rfl] at hw; cases hw
      exact Or.inl (hend hl hs hfinal)
  · -- Neither activity nor completeness of other states hangs on `r`.
    have hr' : r ∉ m.regionsOf s := fun hmem => by
      have := h.mem_regionsOf.mp hmem
      rw [ho] at this; exact hso (Option.some.inj this).symm
    have hsame : ∀ q, r ≠ q → (i.setCurrent r v).current? q = i.current? q := fun q hq => by
      rw [Instance.current?_setCurrent, if_neg hq]
    have hbefore : m.Due i s := hdue.congr h hs.isState (fun q hq => hsame q fun heq => hr (heq ▸ hq))
      fun q hq => hsame q fun heq => hr' (heq ▸ hq)
    exact (Awaited.outside h hs hr (fun _ => hr') hbefore hw).imp id (Or.imp
      (fun ⟨q, hq, hqs⟩ => ⟨q, Or.inl hq, hqs⟩) fun ⟨hl, q, hq, hqs⟩ => ⟨hl, q, Or.inl hq, hqs⟩)

def awaited (hx : m.CompletesOutwards) (ha : m.CompletesAlone) : Ledger m where
  covered s := m.Attended s ∧ m.Secluded s
  lasting s := m.Attended s ∧ m.Lasting s
  Holds := m.Awaited
  mono hW hQ hw := fun s hs hd => (hw s hs hd).imp (fun hs => hW hs) (Or.imp
    (fun ⟨q, hq, hqs⟩ => ⟨q, hQ hq, hqs⟩) fun ⟨hl, q, hq, hqs⟩ => ⟨hl, q, hQ hq, hqs⟩)
  congr hr hw := fun s hs hd => hw s hs (hd.congr h hs.isState (fun q _ => by rw [Instance.current?, hr]; rfl)
    fun q _ => by rw [Instance.current?, hr]; rfl)
  record _ _ ho hoW hend hvW hw := hw.setCurrent h ho (fun hsec hs => hoW ⟨hs, hsec⟩)
    (fun hl hs => hend ⟨hs, hl⟩) fun hsec hs => hvW ⟨hs, hsec⟩
  restart hQ := fun s hs _ => by
    rcases root_or_above h (vertex?_isSome_of_isState hs.isState) with rfl | ⟨q, hq, hqs⟩
    · have hl := hs.secluded_or_lasting.resolve_left fun hsec => hsec.ne_root rfl
      obtain ⟨q, hq⟩ := List.exists_mem_of_ne_nil _ hl.1
      exact Or.inr (Or.inr ⟨hl, q, hQ q hq, hq⟩)
    · exact Or.inr (Or.inl ⟨q, hQ q hq, hqs⟩)
  release hr hw := fun s hs hd =>
    Awaited.outside h hs (fun hrs => hr (hs.leadsOn _ hrs)) (fun hl hmem => hr (hl.2 _ hmem).leadsOn) hd hw
  settle hv hw := fun s hs hd => by
    rcases hw s hs hd with (rfl | hsW) | hpending
    · exact absurd hd (hv (hs.secluded_or_lasting.imp (And.intro hs) (And.intro hs)))
    · exact Or.inl hsW
    · exact Or.inr hpending
  not_root := fun hs => hs.2.ne_root rfl
  enclosed ht hu hq hs := hs.2.enclosed _ (h.mem_regionsOf.mpr hq) _ (mem_transitionIds ht) _ ht _ hu
  forgets hs hp := hs.2.fresh _ hp
  lasts hs hq := hs.2.2 _ (h.mem_regionsOf.mpr hq)
  alone _ ht hs hg := ha _ (mem_transitionIds ht) _ ht hs hg
  external ht hs hg := hx _ (mem_transitionIds ht) _ ht (hs.elim (·.1.isState) (·.1.isState)) hg

end

end Model

namespace Machine.Session

variable {m m' : Machine μ δ} {i : Instance δ} {events : List (Event μ δ)}

/-- After each call no attended state is active and complete and left by a transition on completion. -/
theorem not_due (hb : m.Built) (ht : m.Tame) (hx : m.CompletesOutwards) (hc : m.CompletesAlone)
    (hs : Session (EndsWell : Context σ → Option Halt → Prop) m m' i events) (hn : i.terminated = false)
    {s : VertexId} (ha : m.Attended s) : ¬ m'.Due i s := by
  obtain ⟨hmodel, _, hsession⟩ := hs.model hb.sound
  rw [hmodel]
  have h := hb.sound.arena
  obtain ⟨_, hheld⟩ := (Model.awaited h hx hc).of_session h ht hsession
  have hawaited : m.toModel.Awaited ∅ ∅ i := hheld.resolve_left (by simp [hn])
  intro hdue
  rcases hawaited s ha hdue with hW | ⟨q, hQ, _⟩ | ⟨_, q, hQ, _⟩
  · cases hW
  · cases hQ
  · cases hQ

def jobs : Machine String Unit :=
  (Machine.ofName "jobs").edited [.addState (.state root) "job", .addPseudoState (.region ⟨0⟩) "start" .initial,
    .addTransition (.between ⟨2⟩ ⟨1⟩), .addPseudoState (.state ⟨1⟩) "start" .initial, .addState (.region ⟨1⟩) "busy",
    .addTransition (.between ⟨3⟩ ⟨4⟩), .addFinalState (.region ⟨1⟩) "over", .addState (.region ⟨0⟩) "done",
    .addTransition ((Draft.between ⟨4⟩ ⟨5⟩).on "ready"), .addTransition (.between ⟨1⟩ ⟨6⟩),
    .addTransition ((Draft.between ⟨6⟩ ⟨4⟩).on "resume")]

set_option maxRecDepth 1024 in
theorem completesAlone_jobs : jobs.CompletesAlone := by
  rintro ⟨_ | _ | _ | _ | _ | k⟩ - record hrec hs hg s i <;> cases hrec
  all_goals first
    | rfl
    | exact absurd rfl hg
    | exact absurd hs (by decide +kernel)

theorem attended_job : jobs.Attended ⟨1⟩ := by
  have hlasts : jobs.Lasts ⟨1⟩ :=
    .of_closed [⟨0⟩, ⟨1⟩, ⟨3⟩, ⟨4⟩] (by decide +kernel) (by decide +kernel) (by decide +kernel) (by decide +kernel)
  have hregions : jobs.regionsOf ⟨1⟩ = [⟨1⟩] := by decide +kernel
  refine ⟨by decide +kernel, by decide +kernel, Or.inr ⟨by rw [hregions]; simp, fun q hq => ?_⟩⟩
  rw [hregions, List.mem_singleton] at hq
  exact hq ▸ hlasts

theorem not_due_jobs :
    ∃ play : Play String Unit, jobs.Plays play ∧ play.1.isActive play.2.1 ⟨1⟩ = true ∧ play.1.HasCompletion ⟨1⟩ ∧
      ¬ play.1.Due play.2.1 ⟨1⟩ := by
  have hresumed := plays_of_played jobs 50 () ["ready", "resume"] (by decide +kernel)
  exact ⟨_, hresumed, by decide +kernel, by decide +kernel, not_due ((Built.ofName "jobs").edited _)
    (tame_edited "jobs" (by simp [Edit.Uses, Draft.between, Draft.on, Draft.guarded])) (by decide +kernel)
    completesAlone_jobs hresumed (by decide +kernel) attended_job⟩

/-! ## States that are not attended -/

/-- The machine is well formed, only its completion guards answer to completions, and its transitions on completion are
external; and yet, when some messages have been given, one of these leaves a state that is active and complete. -/
def LosesCompletion (m : Machine String Unit) : Prop :=
  m.Built ∧ m.isWellFormed = true ∧ m.CompletesOutwards ∧ m.CompletesAlone ∧
    ∃ (play : Play String Unit) (s : VertexId), m.Plays play ∧ play.2.1.terminated = false ∧ play.1.Due play.2.1 s

theorem losesCompletion_of_played {edits : List (Edit String Unit)} {m : Machine String Unit}
    (hm : m = (ofName "m").edited edits) (hw : m.isWellFormed = true ∧ m.CompletesOutwards) (ha : m.CompletesAlone)
    (messages : List String) (s : VertexId) (hp : (m.played 50 () messages).isSome)
    (hd : ((m.played 50 () messages).get hp).2.1.terminated = false ∧
      ((m.played 50 () messages).get hp).1.Due ((m.played 50 () messages).get hp).2.1 s) : LosesCompletion m :=
  ⟨hm ▸ (Built.ofName "m").edited edits, hw.1, hw.2, ha, _, s, plays_of_played m 50 () messages hp, hd⟩

def passing : Machine String Unit :=
  (ofName "m").edited [.addState (.state root) "idle", .addPseudoState (.region ⟨0⟩) "start" .initial,
    .addTransition (.between ⟨2⟩ ⟨1⟩), .addState (.region ⟨0⟩) "job", .addFinalState (.state ⟨3⟩) "over",
    .addState (.region ⟨0⟩) "done", .addTransition ((Draft.between ⟨1⟩ ⟨4⟩).on "skip"),
    .addTransition (.between ⟨3⟩ ⟨5⟩)]

def ending : Machine String Unit :=
  (ofName "m").edited [.addFinalState (.state root) "over", .addPseudoState (.region ⟨0⟩) "start" .initial,
    .addTransition (.between ⟨2⟩ ⟨1⟩), .addTransition (.between ⟨0⟩ ⟨0⟩)]

def returning : Machine String Unit :=
  (ofName "m").edited [.addState (.state root) "home", .addPseudoState (.region ⟨0⟩) "start" .initial,
    .addTransition (.between ⟨2⟩ ⟨1⟩), .addPseudoState (.state ⟨1⟩) "last" .shallowHistory,
    .addState (.region ⟨1⟩) "task", .addTransition (.between ⟨3⟩ ⟨4⟩), .addState (.region ⟨0⟩) "away",
    .addTransition (.between ⟨4⟩ ⟨5⟩), .addTransition ((Draft.between ⟨5⟩ ⟨1⟩).on "back")]

def lingering : Machine String Unit :=
  (ofName "m").edited [.addState (.state root) "home", .addPseudoState (.region ⟨0⟩) "start" .initial,
    .addState (.state ⟨1⟩) "task", .addTransition (.between ⟨2⟩ ⟨3⟩), .addState (.region ⟨0⟩) "away",
    .addTransition (.between ⟨3⟩ ⟨4⟩), .addTransition ((Draft.between ⟨4⟩ ⟨1⟩).on "back")]

def meddling : Machine String Unit :=
  (ofName "m").edited [.addState (.state root) "idle", .addPseudoState (.region ⟨0⟩) "start" .initial,
    .addTransition (.between ⟨2⟩ ⟨1⟩), .addState (.region ⟨0⟩) "task", .addTransition (.between ⟨3⟩ ⟨1⟩),
    .addTransition (((Draft.inside ⟨1⟩).on "jump").effect fun _ i => i.setCurrent ⟨0⟩ ⟨3⟩)]

/-- A completion is lost where a state is entered on the way to its end, where the root is at its end when it is
entered, where history brings a state back, where a region without an initial vertex keeps its record, and where an
action records a state. -/
theorem completions_lost : LosesCompletion passing ∧ LosesCompletion ending ∧ LosesCompletion returning ∧
    LosesCompletion lingering ∧ LosesCompletion meddling := by
  refine ⟨losesCompletion_of_played rfl (by decide +kernel) ?_ ["skip"] ⟨3⟩ (by decide +kernel) (by decide +kernel),
    losesCompletion_of_played rfl (by decide +kernel) ?_ [] root (by decide +kernel) (by decide +kernel),
    losesCompletion_of_played rfl (by decide +kernel) ?_ ["back"] ⟨4⟩ (by decide +kernel) (by decide +kernel),
    losesCompletion_of_played rfl (by decide +kernel) ?_ ["back"] ⟨3⟩ (by decide +kernel) (by decide +kernel),
    losesCompletion_of_played rfl (by decide +kernel) ?_ ["jump"] ⟨3⟩ (by decide +kernel) (by decide +kernel)⟩
  -- Every transition leaves a pseudo state, is on completion, or is on a message.
  all_goals
    rintro ⟨_ | _ | _ | _ | k⟩ - record hrec hs hg s i <;> cases hrec
    all_goals first
      | rfl
      | exact absurd rfl hg
      | exact absurd hs (by decide +kernel)

end Machine.Session

end Statechart
