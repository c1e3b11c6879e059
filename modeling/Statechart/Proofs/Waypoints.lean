import Mathlib.Data.Fintype.Card
import Mathlib.Logic.Relation
import Statechart.Proofs.Branching
import Statechart.Proofs.Discipline
import Statechart.Proofs.Finishing

/-!
# Evaluations that come to an end

Entering a vertex leads to others only downwards, into its own regions, or along the transitions out of a waypoint: a
vertex that heads a region, or a branch. Where such transitions stay beneath the region of their waypoint and do not run
in circles, entering comes to an end: what is entered next lies deeper, or in the same region but further along. Where
completions set nothing off besides, so does every call.
-/

namespace Statechart

variable {μ δ σ : Type}

namespace Model

/-! ## Waypoints -/

/-- Nothing stays at the vertex: it heads a region, or is a branch. -/
def isWaypoint (m : Model μ δ) (v : VertexId) : Bool := m.isInitial v || m.isBranch v

/-- What leads out of a waypoint, leads to a vertex beneath the region of the waypoint. -/
def KeepsBeneath (m : Model μ δ) : Prop :=
  ∀ t ∈ m.transitionIds, ∀ record ∈ m.transition? t, m.isWaypoint record.source = true →
    ∀ r ∈ m.parent? record.source, ∀ u ∈ record.target, m.Above r u

instance decidableKeepsBeneath (m : Model μ δ) : Decidable m.KeepsBeneath :=
  inferInstanceAs (Decidable (∀ t ∈ m.transitionIds, _))

def Hops (m : Model μ δ) (v u : VertexId) : Prop :=
  m.isWaypoint v = true ∧ m.isWaypoint u = true ∧
    ∃ t record, m.transition? t = some record ∧ record.source = v ∧ record.target = some u

/-- No way from waypoint to waypoint comes back to where it began, be it at once or by way of others. -/
def HopsOnwards (m : Model μ δ) : Prop := ∀ v, ¬ Relation.TransGen m.Hops v v

/-- What leads out of a state is an else transition, or is enabled by messages only. -/
def HeedsMessages (m : Model μ δ) : Prop :=
  ∀ t record, m.transition? t = some record → m.isState record.source = true →
    record.isElse = true ∨ ∀ trigger i, record.guard.check record.source trigger i = true → trigger.IsMessage

variable {m : Model μ δ} {v w u : VertexId}

theorem isWaypoint_eq_false_of_isState (hv : m.isState v = true) : m.isWaypoint v = false := by
  have hi : m.isInitial v = false := Bool.eq_false_iff.mpr fun hi => by
    rw [isState_eq_false_of_isInitial hi] at hv; cases hv
  simp [isWaypoint, hi, isBranch_of_isState hv]

theorem isState_eq_false_of_isWaypoint (hv : m.isWaypoint v = true) : m.isState v = false :=
  Bool.eq_false_iff.mpr fun hs => by rw [isWaypoint_eq_false_of_isState hs] at hv; cases hv

/-! ## How far there is to go -/

theorem Hops.isSome (h : m.Arena) (hhop : m.Hops v u) : (m.vertex? u).isSome := by
  obtain ⟨_, _, t, record, hrec, _, hu⟩ := hhop
  exact h.target_isSome hrec hu

theorem HopsOnwards.exists_rank (h : m.Arena) (hm : m.HopsOnwards) :
    ∃ rank : VertexId → Nat, ∀ v u, m.Hops v u → rank u < rank v := by
  classical
  let ahead (v : VertexId) : Finset (Fin m.vertices.size) := {k | Relation.TransGen m.Hops v ⟨k⟩}
  have hahead : ∀ v k, k ∈ ahead v ↔ Relation.TransGen m.Hops v ⟨k⟩ := by simp [ahead]
  refine ⟨fun v => (ahead v).card, fun v u hhop => Finset.card_lt_card ?_⟩
  have hmem : (⟨u.index, vertex?_isSome_iff.mp (hhop.isSome h)⟩ : Fin m.vertices.size) ∈ ahead v :=
    (hahead v _).mpr (.single hhop)
  refine Finset.ssubset_iff_subset_ne.mpr ⟨fun k hk => ?_, fun heq => ?_⟩
  · exact (hahead v k).mpr (.head hhop ((hahead u k).mp hk))
  · rw [← heq] at hmem
    exact hm u ((hahead u _).mp hmem)

theorem hopsOnwards_of_rank (rank : VertexId → Nat) (hrank : ∀ t ∈ m.transitionIds, ∀ record ∈ m.transition? t,
    m.isWaypoint record.source = true → ∀ u ∈ record.target, m.isWaypoint u = true → rank u < rank record.source) :
    m.HopsOnwards := by
  have hpath : ∀ v u, Relation.TransGen m.Hops v u → rank u < rank v := by
    have hhops : ∀ v u, m.Hops v u → rank u < rank v := by
      rintro _ u ⟨hv, hu, t, record, hrec, rfl, htarget⟩
      exact hrank t (mem_transitionIds hrec) record hrec hv u htarget hu
    intro v u hvu
    induction hvu with
    | single hhop => exact hhops _ _ hhop
    | tail _ hhop ih => exact (hhops _ _ hhop).trans ih
  exact fun v hv => absurd (hpath v v hv) (Nat.lt_irrefl _)

theorem heedsMessages_of_on [DecidableEq μ] (hon : ∀ t record, m.transition? t = some record →
    m.isState record.source = true → record.isElse = true ∨ ∃ x, record.guard = .on x) : m.HeedsMessages := by
  intro t record hrec hs
  rcases hon t record hrec hs with helse | ⟨x, hx⟩
  · exact Or.inl helse
  · refine Or.inr fun trigger i hcheck => ?_
    simp only [hx, Guard.on, Guard.check, decide_eq_true_eq] at hcheck
    cases trigger with
    | message x => trivial
    | _ => cases hcheck

def room (m : Model μ δ) (v : VertexId) : Nat :=
  match (m.parent? v).bind m.owner? with
  | some o => m.vertices.size - o.index
  | none => m.vertices.size + 1

def level (m : Model μ δ) (v : VertexId) : Nat := 2 * m.room v + (m.isWaypoint v).toNat

/-- Less is left to do from `w` than from `v`: it lies deeper, or else the ways on from it are shorter. -/
def Nearer (m : Model μ δ) (rank : VertexId → Nat) (w v : VertexId) : Prop :=
  m.level w < m.level v ∨ m.level w = m.level v ∧ rank w < rank v

theorem Nearer.trans {rank : VertexId → Nat} (hu : m.Nearer rank u w) (hw : m.Nearer rank w v) : m.Nearer rank u v := by
  unfold Nearer at *
  omega

theorem wellFounded_nearer (m : Model μ δ) (rank : VertexId → Nat) : WellFounded (m.Nearer rank) := by
  refine Subrelation.wf (r := InvImage (Prod.Lex (· < ·) (· < ·)) fun v => (m.level v, rank v)) (fun {w v} hw => ?_)
    (InvImage.wf _ (Nat.lt_wfRel.wf.prod_lex Nat.lt_wfRel.wf))
  rcases hw with hlt | ⟨heq, hlt⟩
  · exact .left _ _ hlt
  · simp only [InvImage, heq]
    exact .right _ hlt

section
variable (h : m.Arena) {rank : VertexId → Nat} {r q : RegionId} {o : VertexId}
include h

omit h in
theorem room_eq (hv : m.parent? v = some r) (ho : m.owner? r = some o) : m.room v = m.vertices.size - o.index := by
  simp [room, hv, ho]

theorem nearer_of_owner (hw : m.parent? w = some r) (hv : m.owner? r = some v) : m.Nearer rank w v := by
  have hlt := h.owner?_lt hw hv
  have hsize := vertex?_isSome_iff.mp (vertex?_isSome_of_parent? hw)
  have hroom := room_eq hw hv
  have hw1 : (m.isWaypoint w).toNat ≤ 1 := Bool.toNat_le _
  refine Or.inl ?_
  unfold level
  rcases h.root_or_owner (vertex?_isSome_of_isState (h.isState_of_owner? hv)) with rfl | ⟨q, o, hq, ho, hlt'⟩
  · have hroot : m.room root = m.vertices.size + 1 := by simp [room, h.parent?_root]
    omega
  · have := room_eq hq ho
    omega

theorem room_le_of_above (hv : m.parent? v = some q) (hu : m.Above q u) : m.room u ≤ m.room v := by
  obtain ⟨o, ho⟩ := h.owner?_of_parent? hv
  rcases h.root_or_owner (vertex?_isSome_of_above hu) with rfl | ⟨p, s, hp, hs, _⟩
  · exact absurd hu (not_above_root h q)
  · rw [room_eq hp hs, room_eq hv ho]
    rcases (above_iff h hp q).mp hu with rfl | ⟨s', hs', ha⟩
    · rw [ho] at hs
      cases hs
      exact Nat.le_refl _
    · rw [hs] at hs'
      cases hs'
      have := index_lt_of_above h ho s (vertex?_isSome_of_above ha) ha
      omega

theorem nearer_of_above (hv : m.parent? v = some q) (hway : m.isWaypoint v = true) (hu : m.Above q u)
    (hhop : m.isWaypoint u = true → rank u < rank v) : m.Nearer rank u v := by
  have hle := room_le_of_above h hv hu
  unfold Nearer level
  rw [hway]
  -- Only a waypoint of the same region is on the same level, and there the rank decides.
  cases hw : m.isWaypoint u with
  | false => exact Or.inl (by simp; omega)
  | true =>
    rcases Nat.lt_or_ge (m.room u) (m.room v) with hlt | hge
    · exact Or.inl (by simp; omega)
    · exact Or.inr ⟨by simp; omega, hhop hw⟩

theorem hereditary_nearer (rank : VertexId → Nat) (v : VertexId) : m.Hereditary fun w => m.Nearer rank w v :=
  fun hw ho hv => (nearer_of_owner h hw ho).trans hv

theorem nearer_of_mem_drop (hv : m.parent? v = some q) (hway : m.isWaypoint v = true) (hu : m.Above q u)
    (hhop : m.isWaypoint u = true → rank u < rank v)
    (hw : w ∈ (m.chain u).drop (m.divergence (m.chain v) (m.chain u))) : m.Nearer rank w v := by
  obtain ⟨o, ho⟩ := h.owner?_of_parent? hv
  refine nearer_of_above h hv hway (above_of_mem_drop h ho (above_parent h hv) hu hw) fun hwway => ?_
  by_cases heq : w = u
  · subst heq
    exact hhop hwway
  · have hs := isState_of_mem_chain h u (vertex?_isSome_of_above hu) (List.mem_of_mem_drop hw) heq
    rw [isWaypoint_eq_false_of_isState hs] at hwway
    cases hwway

section
variable (hbeneath : m.KeepsBeneath) (hrank : ∀ v u, m.Hops v u → rank u < rank v) {t : TransitionId}
variable {record : Transition μ δ} (hrec : m.transition? t = some record) (hway : m.isWaypoint record.source = true)
include hbeneath hrank hrec hway

theorem nearer_of_target (hu : record.target = some u) :
    m.Nearer rank u record.source ∧ ∀ w ∈ (m.chain u).drop (m.divergence (m.chain record.source) (m.chain u)),
      m.Nearer rank w record.source := by
  obtain ⟨r, hr⟩ := h.exists_parent? (h.source_isSome hrec) (isState_eq_false_of_isWaypoint hway)
  have habove := hbeneath t (mem_transitionIds hrec) record hrec hway r hr u hu
  have hhop : m.isWaypoint u = true → rank u < rank record.source :=
    fun huway => hrank _ u ⟨hway, huway, t, record, hrec, rfl, hu⟩
  exact ⟨nearer_of_above h hr hway habove hhop, fun w => nearer_of_mem_drop h hr hway habove hhop⟩

theorem moving_onwards {plainly : RegionId → Bool} (i : Instance δ) :
    ∀ s ∈ (m.route plainly t).steps i, m.Moving (fun w => m.Nearer rank w record.source) s := by
  intro s hs
  cases hu : record.target with
  | none =>
    rw [steps_internal hrec hu] at hs
    exact Or.inr (arriving_effectsOf t s hs)
  | some u =>
    have hlocal : ¬ m.IsLocal record u :=
      not_isLocal_of_not_isState h (isState_eq_false_of_isWaypoint hway) (h.target_isSome hrec hu)
    obtain ⟨d, e, rest, _, hdrop, _, hsteps⟩ := @steps_direct _ _ m plainly t record u hrec hu hlocal i
    obtain ⟨hnear, hdropped⟩ := nearer_of_target h hbeneath hrank hrec hway hu
    rw [hdrop] at hdropped
    rw [hsteps] at hs
    rcases List.mem_append.mp hs with hs | hs
    · exact Or.inl ⟨d, departing_leaveVertex d s hs⟩
    · exact Or.inr (arriving_arrival h (hereditary_nearer h rank _) t hdropped hnear s hs)

end

end

end Model

/-! ## Entering -/

namespace Eval

open Model

variable {m : Model μ δ} {plainly : RegionId → Bool} {c : Context σ} {mode : Mode μ} {trigger : Trigger μ}
variable {t : TransitionId} {v w u : VertexId} {V : VertexId → Prop}

/-- What there is to be done at the vertex, once its entry has begun, finishes; so does going on from it. -/
structure Lands (m : Model μ δ) (plainly : RegionId → Bool) (c : Context σ) (v : VertexId) : Prop where
  enters : ∀ mode, Ceases m fun fuel => perform m (m.compileWith plainly) c fuel mode (m.endEnterVertex plainly v)
  follows : m.isWaypoint v = true → ∀ t ∈ m.outgoing v, ∀ trigger,
    Ceases m fun fuel => follow m (m.compileWith plainly) c fuel trigger t

theorem idles_of_heedsMessages (h : m.Arena) (hheeds : m.HeedsMessages) : Idles m := by
  refine fun v hs i => List.eq_nil_iff_forall_not_mem.mpr fun t ht => ?_
  obtain ⟨record, hrec, rfl, hcheck⟩ := source_of_enabled h ht
  rcases hheeds t record hrec hs with helse | hmessage
  · have hnot := isElse_of_check hcheck
    rw [Transition.isElse, hnot] at helse
    cases helse
  · exact hmessage _ i hcheck

section
variable (h : m.Arena) (hA : m.Acts Action.KeepsRecords) (hidle : Idles m)
include h hA hidle

omit hA in
theorem ceases_traverseStep (hfollow : Ceases m fun fuel => follow m (m.compileWith plainly) c fuel mode.trigger t) :
    Ceases m fun fuel => performStep m (m.compileWith plainly) c fuel mode (.traverse t) := by
  refine .succ ?_
  simp only [performStep]
  exact ceases_traverse h hidle hfollow

theorem ceases_moving {s : Step μ δ} (hs : m.Moving V s) (hV : ∀ v, V v → Lands m plainly c v) :
    Ceases m fun fuel => performStep m (m.compileWith plainly) c fuel mode s := by
  have hwithin := hs.within h hA
  rcases hs with ⟨v, hs⟩ | hs
  · exact ceases_departing hs hwithin (fun _ _ w _ => ceases_leaveVertex h hA w) mode
  · cases hs with
    | begin hs => exact ceases_brief hwithin hs.isBrief
    | region => exact ceases_brief hwithin trivial
    | enter _ hmembers => exact ceases_enterRegion hA hwithin.2.2 (fun w hw => (hV w (hmembers w hw)).enters) mode
    | @traverse v t hv hi ht =>
      have hway : m.isWaypoint v = true := by simp [isWaypoint, hi]
      exact ceases_traverseStep h hidle ((hV v hv).follows hway t ht mode.trigger)
    | act => exact ceases_brief hwithin trivial

section
variable {rank : VertexId → Nat} (hbeneath : m.KeepsBeneath) (hrank : ∀ v u, m.Hops v u → rank u < rank v)
variable (ih : ∀ w, m.Nearer rank w v → Lands m plainly c w)
include hbeneath hrank ih

theorem ceases_onwards (hway : m.isWaypoint v = true) (ht : t ∈ m.outgoing v) (trigger : Trigger μ) :
    Ceases m fun fuel => follow m (m.compileWith plainly) c fuel trigger t := by
  obtain ⟨record, hrec, rfl⟩ := h.source_of_mem_outgoing ht
  refine ceases_follow h hrec (fun i => ?_) fun u hu hb next hnext => ?_
  · exact ceases_perform fun s hs =>
      ceases_moving h hA hidle (moving_onwards h hbeneath hrank hrec hway i s hs) ih
  · have huway : m.isWaypoint u = true := by simp [isWaypoint, hb]
    have hnear := (nearer_of_target h hbeneath hrank hrec hway hu).1
    exact (ih u hnear).follows huway next hnext trigger

theorem ceases_endEnterVertex (mode : Mode μ) :
    Ceases m fun fuel => perform m (m.compileWith plainly) c fuel mode (m.endEnterVertex plainly v) := by
  refine ceases_perform fun s hs => ?_
  rw [endEnterVertex_eq, List.mem_append, List.mem_flatMap] at hs
  rcases hs with hs | ⟨r, hr, hs⟩
  · -- The way on from `v` is nothing that is nearer, but where it leads is.
    rcases endEnterPseudo_cases m v with ⟨heq, _⟩ | ⟨t, rest, hi, ho, heq⟩ <;> rw [heq] at hs
    · cases hs
    · obtain rfl := List.mem_singleton.mp hs
      have hway : m.isWaypoint v = true := by simp [isWaypoint, hi]
      exact ceases_traverseStep h hidle (ceases_onwards h hA hidle hbeneath hrank ih hway (by simp [ho]) mode.trigger)
  · rcases List.mem_cons.mp hs with rfl | hs
    · exact ceases_brief (V := fun _ => True) trivial trivial
    · have hmembers : ∀ w, m.parent? w = some r → m.Nearer rank w v := fun w hw =>
        nearer_of_owner h hw (h.mem_regionsOf.mp hr)
      exact ceases_moving h hA hidle (Or.inr (arriving_endEnterRegion h (region?_isSome_of_mem h hr) hmembers s hs)) ih

theorem lands_of_nearer : Lands m plainly c v where
  enters := ceases_endEnterVertex h hA hidle hbeneath hrank ih
  follows hway _ ht trigger := ceases_onwards h hA hidle hbeneath hrank ih hway ht trigger

end

variable (hbeneath : m.KeepsBeneath) (honwards : m.HopsOnwards)
include hbeneath honwards

theorem lands (v : VertexId) : Lands m plainly c v := by
  obtain ⟨rank, hrank⟩ := honwards.exists_rank h
  -- What is entered or followed next is nearer, so the induction is on nearness and not on fuel.
  induction v using (wellFounded_nearer m rank).induction with
  | _ v ih => exact lands_of_nearer h hA hidle hbeneath hrank ih

theorem ceases_transition (ht : (m.transition? t).isSome) :
    Ceases m fun fuel => traverse m (m.compileWith plainly) c fuel mode t := by
  obtain ⟨record, hrec⟩ := Option.isSome_iff_exists.mp ht
  have hlands : ∀ v, Lands m plainly c v := lands h hA hidle hbeneath honwards
  refine ceases_traverse h hidle (ceases_follow h hrec (fun i => ?_) fun u hu hb next hnext => ?_)
  · exact ceases_perform fun s hs =>
      ceases_moving h hA hidle (moving_route h (fun _ => trivial) t i s hs) fun v (_ : True) => hlands v
  · have hway : m.isWaypoint u = true := by simp [isWaypoint, hb]
    exact (hlands u).follows hway next hnext mode.trigger

theorem ceases_onInitialise :
    Ceases m fun fuel => perform m (m.compileWith plainly) c fuel mode (m.compileWith plainly).onInitialise := by
  exact ceases_perform fun s hs => ceases_moving h hA hidle (Or.inr (arriving_onInitialise h s hs)) fun v (_ : True) =>
    lands h hA hidle hbeneath honwards v

theorem ceases_offer_root : Ceases m fun fuel => offer m (m.compileWith plainly) c fuel trigger root :=
  ceases_offer h hidle (fun _ ht _ => ceases_transition h hA hidle hbeneath honwards ht) root h.vertex?_root_isSome

end

end Eval

/-! ## Calls -/

namespace Machine

variable {m : Machine μ δ} {c : Context σ}

/-- With any fuel from some amount on, the call comes to one end: it answers, or the sink refuses an error. -/
def Returns {α : Type} (call : Nat → EStateM.Result Halt (Run μ δ σ) α) : Prop :=
  ∃ n result, (∀ fuel ≥ n, call fuel = result) ∧ Eval.Concludes (fun _ _ => True) result

theorem returns_const {α : Type} {result : EStateM.Result Halt (Run μ δ σ) α}
    (h : Eval.Concludes (fun _ _ => True) result) : Returns fun _ => result := ⟨0, result, fun _ _ => rfl, h⟩

theorem returns_of_finishes {α : Type} {x : Nat → Eval μ δ σ α} (hx : Eval.Ceases m.toModel x) {i : Instance δ}
    (hi : m.Fits false i) (s : σ) : Returns fun fuel => x fuel { inst := i, outside := s } :=
  hx.post (fun _ _ _ => trivial) { inst := i, outside := s } ⟨hi, by simp⟩

section
variable (hm : m.Sound) (hA : m.Acts Action.KeepsRecords) (hbeneath : m.KeepsBeneath) (honwards : m.HopsOnwards)
variable (hheeds : m.HeedsMessages) {i : Instance δ} (hi : m.Fits false i) (s : σ)
include hm hA hbeneath honwards hheeds hi

theorem returns_initialiseCompiled : Returns fun fuel => m.initialiseCompiled c fuel { inst := i, outside := s } := by
  unfold initialiseCompiled
  cases hp : m.program with
  | none => exact returns_const ⟨_, rfl⟩
  | some p =>
    rw [hm.program p hp]
    have hidle := Eval.idles_of_heedsMessages hm.arena hheeds
    exact returns_of_finishes (Eval.ceases_onInitialise hm.arena hA hidle hbeneath honwards) hi s

theorem returns_evaluateCompiled (message : μ) :
    Returns fun fuel => m.evaluateCompiled c fuel message { inst := i, outside := s } := by
  refine returns_of_finishes (x := fun fuel => m.evaluateCompiled c fuel message) ?_ hi s
  unfold evaluateCompiled
  refine .bind Eval.ceases_inst fun i' => ?_
  cases i'.terminated with
  | true => exact Eval.ceases_pure false
  | false =>
    cases hp : m.program with
    | none => exact .const (Triple.throw fun _ _ => ⟨_, rfl⟩)
    | some p =>
      rw [hm.program p hp]
      have hidle := Eval.idles_of_heedsMessages hm.arena hheeds
      exact Eval.ceases_offer_root hm.arena hA hidle hbeneath honwards

theorem returns_initialise : Returns fun fuel => (m.initialise c fuel i s).2 := by
  unfold initialise
  cases hp : m.prepare? c with
  | none => exact returns_const ⟨_, rfl⟩
  | some m' =>
    obtain ⟨heq, hm'⟩ := prepare?_eq_some hm hp
    rw [← heq] at hA hbeneath honwards hheeds hi
    exact returns_initialiseCompiled hm' hA hbeneath honwards hheeds hi s

theorem returns_evaluate (message : μ) : Returns fun fuel => (m.evaluate c fuel message i s).2 := by
  unfold evaluate
  cases hn : i.terminated with
  | true => exact returns_const trivial
  | false =>
    cases hp : m.prepare? c with
    | none => exact returns_const ⟨_, rfl⟩
    | some m' =>
      obtain ⟨heq, hm'⟩ := prepare?_eq_some hm hp
      rw [← heq] at hA hbeneath honwards hheeds hi
      exact returns_evaluateCompiled hm' hA hbeneath honwards hheeds hi s message

end

/-- Compiling comes to an end, whether it goes from owner to owned or up to the root, and so does every call. -/
theorem Built.calls_return (hm : m.Built) (hA : m.Acts Action.KeepsRecords) (hbeneath : m.KeepsBeneath)
    (honwards : m.HopsOnwards) (hheeds : m.HeedsMessages) :
    (WellFounded (fun e e' => m.Owns e' e) ∧ (∀ v, (m.vertex? v).isSome → (m.path? v).isSome) ∧
      ∃ p, m.compile.program = some p ∧ p.Covers m.toModel) ∧
    ∀ {σ : Type} (c : Context σ) {i : Instance δ} (s : σ), m.Fits false i →
      Returns (fun fuel => (m.initialise c fuel i s).2) ∧
      Returns (fun fuel => m.initialiseCompiled c fuel { inst := i, outside := s }) ∧
      ∀ message, Returns (fun fuel => (m.evaluate c fuel message i s).2) ∧
        Returns fun fuel => m.evaluateCompiled c fuel message { inst := i, outside := s } := by
  have h := hm.sound.arena
  refine ⟨⟨h.wellFounded_owns, fun v hv => ?_, _, rfl, Model.covers_compile m.toModel⟩, fun c i s hi => ⟨?_, ?_, ?_⟩⟩
  · simp [Model.path?_isSome h hv]
  · exact returns_initialise hm.sound hA hbeneath honwards hheeds hi s
  · exact returns_initialiseCompiled hm.sound hA hbeneath honwards hheeds hi s
  · exact fun message => ⟨returns_evaluate hm.sound hA hbeneath honwards hheeds hi s message,
      returns_evaluateCompiled hm.sound hA hbeneath honwards hheeds hi s message⟩

def mailroom : Machine String Unit := (ofName "m").edited
  [.addPseudoState (.state root) "arrival" .initial, .addPseudoState (.region ⟨0⟩) "desk" .junction,
    .addPseudoState (.region ⟨0⟩) "lot" .choice, .addState (.region ⟨0⟩) "hall",
    .addPseudoState (.state ⟨4⟩) "last" .deepHistory, .addState (.region ⟨1⟩) "left", .addState (.region ⟨1⟩) "right",
    .addTransition (.between ⟨1⟩ ⟨2⟩), .addTransition (.between ⟨2⟩ ⟨3⟩), .addTransition (.between ⟨3⟩ ⟨6⟩),
    .addTransition ((Draft.between ⟨3⟩ ⟨4⟩).otherwise), .addTransition (.between ⟨5⟩ ⟨7⟩),
    .addTransition ((Draft.between ⟨6⟩ ⟨2⟩).on "next"), .addTransition ((Draft.between ⟨4⟩ ⟨4⟩).on "again"),
    .addTransition ((Draft.between ⟨4⟩ ⟨1⟩).otherwise)]

def atLeft : Instance Unit := (({ data := () } : Instance Unit).setCurrent ⟨0⟩ ⟨4⟩).setCurrent ⟨1⟩ ⟨6⟩

set_option maxRecDepth 1024 in
theorem heedsMessages_mailroom : mailroom.HeedsMessages := by
  refine Model.heedsMessages_of_on fun t record hrec hs => ?_
  have hall : ∀ t ∈ mailroom.transitionIds, ∀ record ∈ mailroom.transition? t,
      mailroom.isState record.source = true → record.isElse = true ∨ t = ⟨5⟩ ∨ t = ⟨6⟩ := by decide +kernel
  have hnext : (mailroom.transition? ⟨5⟩).map (·.guard) = some (.on "next") := rfl
  have hagain : (mailroom.transition? ⟨6⟩).map (·.guard) = some (.on "again") := rfl
  rcases hall t (Model.mem_transitionIds hrec) record hrec hs with helse | rfl | rfl
  · exact Or.inl helse
  · rw [hrec] at hnext
    exact Or.inr ⟨"next", Option.some.inj hnext⟩
  · rw [hrec] at hagain
    exact Or.inr ⟨"again", Option.some.inj hagain⟩

theorem calls_return_mailroom :
    Returns (fun fuel => (mailroom.initialise Context.strict fuel { data := () } ()).2) ∧
    Returns (fun fuel => (mailroom.evaluate Context.strict fuel "next" atLeft ()).2) ∧
    answer? (mailroom.evaluate Context.strict 50 "next" atLeft ()).2 = some true := by
  have hkeeps : mailroom.Acts Action.KeepsRecords :=
    acts_edited "m" (by simp [Edit.Uses, Draft.between, Draft.on, Draft.otherwise, Draft.guarded])
  have hfits : mailroom.Fits false atLeft :=
    ((Model.fits_empty ()).setCurrent (by decide +kernel) (by simp)).setCurrent (by decide +kernel) (by simp)
  have honwards : mailroom.HopsOnwards :=
    Model.hopsOnwards_of_rank (fun v => 3 - v.index) (by decide +kernel)
  obtain ⟨_, hcalls⟩ := Built.calls_return ((Built.ofName "m").edited _ : mailroom.Built) hkeeps (by decide +kernel)
    honwards heedsMessages_mailroom
  obtain ⟨hinitialise, _⟩ := hcalls Context.strict () (Model.fits_empty ())
  obtain ⟨_, _, hevaluate⟩ := hcalls Context.strict () hfits
  exact ⟨hinitialise, (hevaluate "next").1, by decide +kernel⟩

end Machine

end Statechart
